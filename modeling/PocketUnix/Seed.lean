import PocketUnix.Config
import PocketUnix.Machine

/-!
# The machine at the start

The file tree, the users, the groups and the processes with which every session begins.
-/

namespace PocketUnix.Seed

def welcome : String := Text.joinLines [
  "Welcome to Terminus Linux!",
  "",
  "This is a sandboxed shell. Nothing you do here touches a real machine,",
  "so feel free to experiment.",
  "",
  "Things to try:",
  "  ls -la, cd docs, cat manual.txt      explore the filesystem",
  "  echo \"hi\" > note.txt                 create files",
  "  cat data.csv | grep Admin            chain commands with pipes",
  "  ps, top, kill 1205                   manage processes",
  "  vim notes.txt                        edit text (:wq to save and quit)",
  "  help                                 list every supported command",
  "",
  "Press Tab to complete command names and paths."]

variable (now : DateTime)

def userFile (name : String) (lines : List String) : Node :=
  .newFile name "user" "user" now (Text.joinLines lines)

def rootFile (name : String) (lines : List String) : Node :=
  .newFile name "root" "root" now (Text.joinLines lines)

def withPermissions (permissions : String) (n : Node) : Node :=
  n.updateAttributes fun a => { a with permissions }

def directory (name owner group : String) (nodes : List Node) : Node :=
  nodes.foldl (fun directory n => .withEntry n directory) (.newDirectory name owner group now)

def systemDirectory (name : String) (nodes : List Node) : Node :=
  directory now name "root" "user" nodes

def device (name permissions group : String) : Node :=
  withPermissions permissions (.newFile name "root" group now "")

def homes : Node := systemDirectory now "home" [
  directory now "user" "user" "user" [
    userFile now "welcome.txt" [welcome],
    directory now "docs" "user" "user" [
      userFile now "manual.txt" ["This is a simulated Linux environment."],
      userFile now "todo.list" ["1. Learn Linux", "2. Master Grep", "3. Sleep"]],
    directory now "scripts" "user" "user" [
      withPermissions Permissions.executable
        (userFile now "hello.sh" ["#!/bin/bash", "echo \"Hello World!\""])],
    userFile now "data.csv"
      ["id,name,role", "1,Admin,Superuser", "2,User,Guest", "3,Bot,Automated"]]]

def settings (hostname : String) : Node := systemDirectory now "etc" [
  rootFile now "hostname" [hostname],
  rootFile now "passwd"
    ["root:x:0:0:root:/root:/bin/bash", "user:x:1000:1000:user:/home/user:/bin/bash"],
  rootFile now "group" ["root:x:0:", "user:x:1000:", "sudo:x:27:"],
  rootFile now "os-release" ["PRETTY_NAME=\"Terminus Linux v1.0\""],
  withPermissions "-r--r-----" (rootFile now "sudoers" ["root ALL=(ALL:ALL) ALL"])]

def logs : Node := systemDirectory now "var" [
  directory now "log" "root" "root" [
    rootFile now "syslog" [
      "Jan 01 00:00:01 systemd[1]: Started Terminus OS.",
      "Jan 01 10:23:44 kernel: [    0.000000] Linux version 6.5.0-generic"],
    rootFile now "auth.log" ["Jan 01 10:00:00 sshd[450]: Accepted password for user"]]]

def devices : Node := systemDirectory now "dev" [
  device now "null" "crw-rw-rw-" "root",
  device now "sda" "brw-rw----" "disk",
  device now "sda1" "brw-rw----" "disk"]

def programs : Node := systemDirectory now "bin" [
  withPermissions Permissions.executable (rootFile now "ls" ["[binary]"]),
  withPermissions Permissions.executable (rootFile now "bash" ["[binary]"])]

/-- The root has no name. -/
def root (hostname : String) : Node := directory now "" "root" "root" [
  homes now, settings now hostname, logs now, systemDirectory now "proc" [], devices now,
  programs now]

def users : Table User := .ofList [("root", ⟨0, "root", []⟩), ("user", ⟨1000, "user", ["sudo"]⟩)]

def groups : Table Nat := .ofList [("root", 0), ("user", 1000), ("sudo", 27)]

def processes : List Process := [
  ⟨1, "root", "systemd", 1, 4, .sleeping, "00:01:23"⟩,
  ⟨2, "root", "kthreadd", 0, 0, .sleeping, "00:00:04"⟩,
  ⟨450, "root", "sshd", 0, 12, .sleeping, "00:12:44"⟩,
  ⟨1001, "user", "bash", 0, 21, .running, "00:04:12"⟩,
  ⟨1002, "user", "react-app", 45, 124, .sleeping, "00:02:10"⟩,
  ⟨1205, "www-data", "nginx", 12, 56, .sleeping, "00:55:01"⟩]

def network : Network := ⟨"192.168.1.42", "eth0", "00:1B:44:11:3A:B7"⟩

/-- The machine of a configuration, whose user has to be one of the first users. -/
def machine (c : Config) : Except ConfigFault Machine :=
  if !Table.contains users c.user then .error (.unknownUser c.user)
  else
    let root := root now c.hostname
    let home := if c.homeOnStart then Path.home c.user else []
    let cwd := if root.isDirectoryAt home then home else []
    .ok ⟨root, ⟨users, groups, c.hostname, c.user, processes, network⟩, cwd⟩

end PocketUnix.Seed

import Mathlib.Data.List.Sort
import PocketUnix.Command.Run
import PocketUnix.Proofs.Table

/-!
# Names of commands

The commands are known by name in three ways that have to agree: the table from which they are run,
the directory in which the family of a name is found by halving, and the names that each family
tells its own commands by. Package managers and interpreters are not among them, and to any other
name nothing answers.
-/

namespace PocketUnix

def FileCommand.ofName? : String → Option FileCommand
  | "basename" => some .basename
  | "cd" => some .cd
  | "chattr" => some .chattr
  | "chgrp" => some .chgrp
  | "chmod" => some .chmod
  | "chown" => some .chown
  | "cp" => some .cp
  | "dirname" => some .dirname
  | "du" => some .du
  | "file" => some .file
  | "find" => some .find
  | "ln" => some .ln
  | "locate" => some .locate
  | "ls" => some .ls
  | "lsattr" => some .lsattr
  | "mkdir" => some .mkdir
  | "mv" => some .mv
  | "pwd" => some .pwd
  | "realpath" => some .realpath
  | "rm" => some .rm
  | "shred" => some .shred
  | "stat" => some .stat
  | "touch" => some .touch
  | "tree" => some .tree
  | "whereis" => some .whereis
  | "which" => some .which
  | _ => none

def TextCommand.ofName? : String → Option TextCommand
  | "awk" => some .awk
  | "cat" => some .cat
  | "column" => some .column
  | "cut" => some .cut
  | "diff" => some .diff
  | "echo" => some .echo
  | "grep" => some .grep
  | "head" => some .head
  | "join" => some .join
  | "jq" => some .jq
  | "less" => some .less
  | "more" => some .more
  | "nl" => some .nl
  | "paste" => some .paste
  | "rev" => some .rev
  | "sed" => some .sed
  | "sort" => some .sort
  | "tail" => some .tail
  | "tee" => some .tee
  | "tr" => some .tr
  | "uniq" => some .uniq
  | "wc" => some .wc
  | "zgrep" => some .zgrep
  | _ => none

def ProcessCommand.ofName? : String → Option ProcessCommand
  | "at" => some .at
  | "bg" => some .bg
  | "crontab" => some .crontab
  | "fg" => some .fg
  | "htop" => some .htop
  | "jobs" => some .jobs
  | "kill" => some .kill
  | "killall" => some .killall
  | "nice" => some .nice
  | "nohup" => some .nohup
  | "pgrep" => some .pgrep
  | "pkill" => some .pkill
  | "ps" => some .ps
  | "pstree" => some .pstree
  | "renice" => some .renice
  | "service" => some .service
  | "strace" => some .strace
  | "systemctl" => some .systemctl
  | "tmux" => some .tmux
  | "top" => some .top
  | _ => none

def HostCommand.ofName? : String → Option HostCommand
  | "cal" => some .cal
  | "date" => some .date
  | "dmesg" => some .dmesg
  | "dmidecode" => some .dmidecode
  | "free" => some .free
  | "hostname" => some .hostname
  | "iostat" => some .iostat
  | "lscpu" => some .lscpu
  | "lsmod" => some .lsmod
  | "lsof" => some .lsof
  | "lspci" => some .lspci
  | "lsusb" => some .lsusb
  | "modprobe" => some .modprobe
  | "sar" => some .sar
  | "uname" => some .uname
  | "uptime" => some .uptime
  | "vmstat" => some .vmstat
  | "watch" => some .watch
  | _ => none

def NetworkCommand.ofName? : String → Option NetworkCommand
  | "curl" => some .curl
  | "dig" => some .dig
  | "ethtool" => some .ethtool
  | "ifconfig" => some .ifconfig
  | "ip" => some .ip
  | "nc" => some .nc
  | "netstat" => some .netstat
  | "nmap" => some .nmap
  | "nslookup" => some .nslookup
  | "ping" => some .ping
  | "scp" => some .scp
  | "ss" => some .ss
  | "ssh" => some .ssh
  | "tcpdump" => some .tcpdump
  | "traceroute" => some .traceroute
  | "wget" => some .wget
  | "whois" => some .whois
  | _ => none

def UserCommand.ofName? : String → Option UserCommand
  | "groupadd" => some .groupadd
  | "groups" => some .groups
  | "id" => some .id
  | "passwd" => some .passwd
  | "su" => some .su
  | "sudo" => some .sudo
  | "useradd" => some .useradd
  | "userdel" => some .userdel
  | "usermod" => some .usermod
  | "visudo" => some .visudo
  | "w" => some .w
  | "who" => some .who
  | "whoami" => some .whoami
  | _ => none

def ArchiveCommand.ofName? : String → Option ArchiveCommand
  | "bzip2" => some .bzip2
  | "cpio" => some .cpio
  | "dd" => some .dd
  | "gunzip" => some .gunzip
  | "gzip" => some .gzip
  | "jar" => some .jar
  | "rsync" => some .rsync
  | "tar" => some .tar
  | "unzip" => some .unzip
  | "xz" => some .xz
  | "zip" => some .zip
  | _ => none

def DiskCommand.ofName? : String → Option DiskCommand
  | "blkid" => some .blkid
  | "cfdisk" => some .cfdisk
  | "df" => some .df
  | "fdisk" => some .fdisk
  | "fsck" => some .fsck
  | "lsblk" => some .lsblk
  | "mkfs" => some .mkfs
  | "mkswap" => some .mkswap
  | "mount" => some .mount
  | "parted" => some .parted
  | "swapon" => some .swapon
  | "sync" => some .sync
  | "umount" => some .umount
  | _ => none

def SessionCommand.ofName? : String → Option SessionCommand
  | "clear" => some .clear
  | "help" => some .help
  | "history" => some .history
  | "man" => some .man
  | "nano" => some .nano
  | "vi" => some .vi
  | "vim" => some .vim
  | _ => none

/-- The command that a family has under a name. -/
def Family.command? (name : String) : Family → Option Command
  | .files => (FileCommand.ofName? name).map .files
  | .text => (TextCommand.ofName? name).map .text
  | .process => (ProcessCommand.ofName? name).map .process
  | .host => (HostCommand.ofName? name).map .host
  | .network => (NetworkCommand.ofName? name).map .network
  | .users => (UserCommand.ofName? name).map .users
  | .archive => (ArchiveCommand.ofName? name).map .archive
  | .disk => (DiskCommand.ofName? name).map .disk
  | .session => (SessionCommand.ofName? name).map .session

namespace Command

variable {name : String} {family : Family} {command : Command}

theorem sorted_names : names.Pairwise fun a b => a < b := by
  have htrans : Trans (fun a b : String => a < b) (fun a b => a < b) fun a b => a < b :=
    ⟨String.lt_trans⟩
  have hchain : names.IsChain fun a b => a < b := by decide +kernel
  exact hchain.pairwise

theorem sorted_table : Table.Sorted table := List.pairwise_map.mp sorted_names

theorem sorted_directory : Table.Sorted directory := List.pairwise_map.mpr sorted_table

theorem ofName?_eq_some_iff : ofName? name = some command ↔ (name, command) ∈ table :=
  ⟨Table.mem_of_get?, sorted_table.get?_of_mem⟩

theorem lookup?_eq_some_iff : lookup? name = some family ↔ (name, family) ∈ directory :=
  sorted_directory.search?_eq_some_iff

/-- Halving the directory finds the family of the command that the table has. -/
theorem lookup?_eq (name : String) : lookup? name = (ofName? name).map Command.family := by
  ext family
  rw [lookup?_eq_some_iff, directory, List.mem_map, Option.map_eq_some_iff]
  constructor
  · rintro ⟨⟨_, command⟩, hmem, he⟩
    cases he
    exact ⟨command, ofName?_eq_some_iff.mpr hmem, rfl⟩
  · rintro ⟨command, hn, rfl⟩
    exact ⟨(name, command), ofName?_eq_some_iff.mp hn, rfl⟩

/-- A name is missing from the table just if it is not in the list of names, which is read off the
table. -/
theorem ofName?_eq_none_iff : ofName? name = none ↔ name ∉ names := by
  rw [Option.eq_none_iff_forall_ne_some, names, List.mem_map]
  constructor
  · rintro h ⟨⟨_, command⟩, hmem, rfl⟩
    exact h command (ofName?_eq_some_iff.mpr hmem)
  · intro h command hn
    exact h ⟨(name, command), ofName?_eq_some_iff.mp hn, rfl⟩

theorem isName_iff : isName name = true ↔ name ∈ names := by
  rw [isName, lookup?_eq, Option.isSome_map, Option.isSome_iff_ne_none, ne_eq, ofName?_eq_none_iff,
    not_not]

/-- No name falls through the family that it is listed for. -/
theorem command?_of_name (hn : ofName? name = some command) :
    command.family.command? name = some command := by
  have hall : ∀ entry ∈ table, entry.2.family.command? entry.1 = some entry.2 := by decide +kernel
  exact hall (name, command) (ofName?_eq_some_iff.mp hn)

theorem exists_command_of_lookup? (h : lookup? name = some family) :
    ∃ command, family.command? name = some command := by
  rw [lookup?_eq, Option.map_eq_some_iff] at h
  obtain ⟨command, hn, rfl⟩ := h
  exact ⟨command, command?_of_name hn⟩

/-- Nothing answers to the name. -/
def Unknown (name : String) : Prop :=
  name ∉ names ∧ name ∉ packageManagers ∧ name ∉ interpreters

/-- Package managers and interpreters are not in the table. -/
theorem ofName?_of_manager (h : name ∈ packageManagers ∨ name ∈ interpreters) :
    ofName? name = none := by
  have hnone : ∀ n ∈ packageManagers ++ interpreters, ofName? n = none := by decide
  exact hnone name (List.mem_append.mpr h)

theorem not_manager_of_name (hn : ofName? name = some command) :
    name ∉ packageManagers ∧ name ∉ interpreters := by
  constructor
  · intro h
    cases hn.symm.trans (ofName?_of_manager (.inl h))
  · intro h
    cases hn.symm.trans (ofName?_of_manager (.inr h))

theorem not_unknown_of_name (hn : ofName? name = some command) : ¬Unknown name := by
  intro h
  cases hn.symm.trans (ofName?_eq_none_iff.mpr h.1)

theorem eq_sudo_of_name (hn : ofName? name = some (.users .sudo)) : name = "sudo" := by
  have htable : ∀ entry ∈ table, entry.2 = .users .sudo → entry.1 = "sudo" := by decide +kernel
  exact htable (name, _) (ofName?_eq_some_iff.mp hn) rfl

theorem eq_nice_of_name (hn : ofName? name = some (.process .nice)) : name = "nice" := by
  have htable : ∀ entry ∈ table, entry.2 = .process .nice → entry.1 = "nice" := by decide +kernel
  exact htable (name, _) (ofName?_eq_some_iff.mp hn) rfl

/-- Names are told apart by their family first and then within it. -/
theorem ofName?_eq (name : String) : ofName? name = (lookup? name).bind (·.command? name) := by
  rw [lookup?_eq]
  cases hn : ofName? name with
  | none => rfl
  | some command => exact (command?_of_name hn).symm

end Command

end PocketUnix

import PocketUnix.Table

/-!
# The supported commands

Commands by family, and the table of their names in order.
-/

namespace PocketUnix

inductive FileCommand where
  | basename | cd | chattr | chgrp | chmod | chown | cp | dirname | du | file | find | ln
  | locate | ls | lsattr | mkdir | mv | pwd | realpath | rm | shred | stat | touch | tree
  | whereis | which
  deriving DecidableEq, Repr

inductive TextCommand where
  | awk | cat | column | cut | diff | echo | grep | head | join | jq | less | more | nl | paste
  | rev | sed | sort | tail | tee | tr | uniq | wc | zgrep
  deriving DecidableEq, Repr

inductive ProcessCommand where
  | at | bg | crontab | fg | htop | jobs | kill | killall | nice | nohup | pgrep | pkill | ps
  | pstree | renice | service | strace | systemctl | tmux | top
  deriving DecidableEq, Repr

inductive HostCommand where
  | cal | date | dmesg | dmidecode | free | hostname | iostat | lscpu | lsmod | lsof | lspci
  | lsusb | modprobe | sar | uname | uptime | vmstat | watch
  deriving DecidableEq, Repr

inductive NetworkCommand where
  | curl | dig | ethtool | ifconfig | ip | nc | netstat | nmap | nslookup | ping | scp | ss
  | ssh | tcpdump | traceroute | wget | whois
  deriving DecidableEq, Repr

inductive UserCommand where
  | groupadd | groups | id | passwd | su | sudo | useradd | userdel | usermod | visudo | w
  | who | whoami
  deriving DecidableEq, Repr

inductive ArchiveCommand where
  | bzip2 | cpio | dd | gunzip | gzip | jar | rsync | tar | unzip | xz | zip
  deriving DecidableEq, Repr

inductive DiskCommand where
  | blkid | cfdisk | df | fdisk | fsck | lsblk | mkfs | mkswap | mount | parted | swapon
  | sync | umount
  deriving DecidableEq, Repr

inductive SessionCommand where
  | clear | help | history | man | nano | vi | vim
  deriving DecidableEq, Repr

/-- The kinds of commands, each run in its own way. -/
inductive Family where
  | files | text | process | host | network | users | archive | disk | session
  deriving DecidableEq, Repr

inductive Command where
  | files (c : FileCommand)
  | text (c : TextCommand)
  | process (c : ProcessCommand)
  | host (c : HostCommand)
  | network (c : NetworkCommand)
  | users (c : UserCommand)
  | archive (c : ArchiveCommand)
  | disk (c : DiskCommand)
  | session (c : SessionCommand)
  deriving DecidableEq, Repr

namespace Command

def table : Table Command :=
  [
    ("at", .process .at), ("awk", .text .awk), ("basename", .files .basename),
    ("bg", .process .bg), ("blkid", .disk .blkid), ("bzip2", .archive .bzip2),
    ("cal", .host .cal), ("cat", .text .cat), ("cd", .files .cd), ("cfdisk", .disk .cfdisk),
    ("chattr", .files .chattr), ("chgrp", .files .chgrp), ("chmod", .files .chmod),
    ("chown", .files .chown), ("clear", .session .clear), ("column", .text .column),
    ("cp", .files .cp), ("cpio", .archive .cpio), ("crontab", .process .crontab),
    ("curl", .network .curl), ("cut", .text .cut), ("date", .host .date), ("dd", .archive .dd),
    ("df", .disk .df), ("diff", .text .diff), ("dig", .network .dig),
    ("dirname", .files .dirname), ("dmesg", .host .dmesg), ("dmidecode", .host .dmidecode),
    ("du", .files .du), ("echo", .text .echo), ("ethtool", .network .ethtool),
    ("fdisk", .disk .fdisk), ("fg", .process .fg), ("file", .files .file), ("find", .files .find),
    ("free", .host .free), ("fsck", .disk .fsck), ("grep", .text .grep),
    ("groupadd", .users .groupadd), ("groups", .users .groups), ("gunzip", .archive .gunzip),
    ("gzip", .archive .gzip), ("head", .text .head), ("help", .session .help),
    ("history", .session .history), ("hostname", .host .hostname), ("htop", .process .htop),
    ("id", .users .id), ("ifconfig", .network .ifconfig), ("iostat", .host .iostat),
    ("ip", .network .ip), ("jar", .archive .jar), ("jobs", .process .jobs), ("join", .text .join),
    ("jq", .text .jq), ("kill", .process .kill), ("killall", .process .killall),
    ("less", .text .less), ("ln", .files .ln), ("locate", .files .locate), ("ls", .files .ls),
    ("lsattr", .files .lsattr), ("lsblk", .disk .lsblk), ("lscpu", .host .lscpu),
    ("lsmod", .host .lsmod), ("lsof", .host .lsof), ("lspci", .host .lspci),
    ("lsusb", .host .lsusb), ("man", .session .man), ("mkdir", .files .mkdir),
    ("mkfs", .disk .mkfs), ("mkswap", .disk .mkswap), ("modprobe", .host .modprobe),
    ("more", .text .more), ("mount", .disk .mount), ("mv", .files .mv), ("nano", .session .nano),
    ("nc", .network .nc), ("netstat", .network .netstat), ("nice", .process .nice),
    ("nl", .text .nl), ("nmap", .network .nmap), ("nohup", .process .nohup),
    ("nslookup", .network .nslookup), ("parted", .disk .parted), ("passwd", .users .passwd),
    ("paste", .text .paste), ("pgrep", .process .pgrep), ("ping", .network .ping),
    ("pkill", .process .pkill), ("ps", .process .ps), ("pstree", .process .pstree),
    ("pwd", .files .pwd), ("realpath", .files .realpath), ("renice", .process .renice),
    ("rev", .text .rev), ("rm", .files .rm), ("rsync", .archive .rsync), ("sar", .host .sar),
    ("scp", .network .scp), ("sed", .text .sed), ("service", .process .service),
    ("shred", .files .shred), ("sort", .text .sort), ("ss", .network .ss), ("ssh", .network .ssh),
    ("stat", .files .stat), ("strace", .process .strace), ("su", .users .su),
    ("sudo", .users .sudo), ("swapon", .disk .swapon), ("sync", .disk .sync),
    ("systemctl", .process .systemctl), ("tail", .text .tail), ("tar", .archive .tar),
    ("tcpdump", .network .tcpdump), ("tee", .text .tee), ("tmux", .process .tmux),
    ("top", .process .top), ("touch", .files .touch), ("tr", .text .tr),
    ("traceroute", .network .traceroute), ("tree", .files .tree), ("umount", .disk .umount),
    ("uname", .host .uname), ("uniq", .text .uniq), ("unzip", .archive .unzip),
    ("uptime", .host .uptime), ("useradd", .users .useradd), ("userdel", .users .userdel),
    ("usermod", .users .usermod), ("vi", .session .vi), ("vim", .session .vim),
    ("visudo", .users .visudo), ("vmstat", .host .vmstat), ("w", .users .w),
    ("watch", .host .watch), ("wc", .text .wc), ("wget", .network .wget),
    ("whereis", .files .whereis), ("which", .files .which), ("who", .users .who),
    ("whoami", .users .whoami), ("whois", .network .whois), ("xz", .archive .xz),
    ("zgrep", .text .zgrep), ("zip", .archive .zip)]

def ofName? (name : String) : Option Command := Table.get? name table

def names : List String := table.map (·.1)

def family : Command → Family
  | .files _ => .files
  | .text _ => .text
  | .process _ => .process
  | .host _ => .host
  | .network _ => .network
  | .users _ => .users
  | .archive _ => .archive
  | .disk _ => .disk
  | .session _ => .session

/-- The supported names in order, with the families of their commands. -/
def directory : Table Family := table.map fun (name, command) => (name, command.family)

def lookup? (name : String) : Option Family := Table.search? name directory

def isName (name : String) : Bool := (lookup? name).isSome

end Command

end PocketUnix

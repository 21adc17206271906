import PocketUnix.Calendar.Month
import PocketUnix.Command.Call
import PocketUnix.Command.Name

/-!
# The host

Date and name of the host, and fixed reports on its hardware and load.
-/

namespace PocketUnix.Host

def kernel : String := "6.5.0-generic"

def architecture : String := "x86_64"

def date (c : Call) : Answer :=
  match c.args.head?.bind (Text.stripStart? "+") with
  | none => .ok (.output c.now.longForm)
  | some format =>
    match c.now.format? format with
    | some text => .ok (.output text)
    | none => .error (.usage (.invalidDateFormat format))

def hostname (c : Call) : SystemAction := fun s =>
  let o := c.options ""
  if o.has 'I' || o.has 'i' then .ok (.output s.network.address) s
  else
    match o.operand? 0 with
    | none => .ok (.output s.hostname) s
    | some name =>
      if s.isSuperuser then .ok .empty { s with hostname := name }
      else .error (.invalid .renamesHostUnprivileged) s

def uname (c : Call) (m : Machine) : Reply :=
  let o := c.options ""
  let host := m.system.hostname
  if o.has 'a' then
    .output s!"Linux {host} {kernel} #42-Ubuntu SMP {architecture} GNU/Linux"
  else
    let parts := [('s', "Linux"), ('n', host), ('r', kernel), ('m', architecture)].filter
      fun (flag, _) => o.has flag
    .output (if parts.isEmpty then "Linux" else " ".intercalate (parts.map (·.2)))

def watch (c : Call) : Reply :=
  let o := c.options "n"
  let interval := (o.value? 'n').bind fun n => Binary64.read? n.toList
  let seconds := match interval with
    | some x => x.toFixed 1
    | none => "2.0"
  .lines ["Every " ++ seconds ++ "s: " ++ " ".intercalate o.operands, "",
    "[Command output would update here...]"]

def free (c : Call) : Reply :=
  if (c.options "").has 'h' then
    .lines [
      "              total        used        free      shared  buff/cache   available",
      "Mem:           16Gi       4.2Gi        10Gi       256Mi       1.8Gi        11Gi",
      "Swap:         4.0Gi          0B       4.0Gi"]
  else .output "Mem: 16000000 4000000 12000000"

def dmesg : Reply := .lines [
  "[    0.000000] Linux version " ++ kernel,
  "[    0.000000] Command line: BOOT_IMAGE=/boot/vmlinuz-" ++ kernel,
  "[    0.000000] x86/fpu: Supporting XSAVE feature 0x001: 'x87 floating point registers'"]

def lscpu : Reply := .lines [
  "Architecture: x86_64",
  "CPU op-mode(s): 32-bit, 64-bit",
  "Byte Order: Little Endian",
  "CPU(s): 8",
  "Model name: Terminus Virtual CPU @ 3.50GHz"]

def lsusb : Reply := .lines [
  "Bus 001 Device 001: ID 1d6b:0002 Linux Foundation 2.0 root hub",
  "Bus 002 Device 002: ID 8087:0024 Intel Corp. Integrated Rate Matching Hub"]

def lspci : Reply := .lines [
  "00:00.0 Host bridge: Intel Corporation 440FX - 82441FX PMC [Natoma]",
  "00:01.0 ISA bridge: Intel Corporation 82371SB PIIX3 ISA [Natoma/Triton II]"]

def dmidecode : Reply := .lines [
  "# dmidecode 3.2",
  "Getting SMBIOS data from sysfs.",
  "SMBIOS 2.8 present.",
  "System Information",
  "\tManufacturer: Terminus",
  "\tProduct Name: VirtualBox"]

def lsof : Reply := .lines [
  "COMMAND  PID USER   FD   TYPE DEVICE SIZE/OFF NODE NAME",
  "sshd     450 root  cwd    DIR    8,1     4096    2 /"]

def vmstat : Reply := .lines [
  "procs -----------memory---------- ---swap-- -----io---- -system-- ------cpu-----",
  " r  b   swpd   free   buff  cache   si   so    bi    bo   in   cs us sy id wa st",
  " 1  0      0 102400  20480 512000    0    0     1     1   10   10  1  0 99  0  0"]

def iostat : Reply := .lines [
  "Linux 6.5.0 (terminus) ",
  "",
  "avg-cpu:  %user   %nice %system %iowait  %steal   %idle",
  "           0.50    0.00    0.20    0.01    0.00   99.29",
  "",
  "Device             tps    kB_read/s    kB_wrtn/s    kB_read    kB_wrtn",
  "sda               1.00         4.00        12.00       4096      12288"]

def sar : Reply := .lines [
  "10:00:01        CPU     %user     %nice   %system   %iowait    %steal     %idle",
  "10:10:01        all      0.50      0.00      0.20      0.00      0.00     99.30"]

def lsmod : Reply := .lines [
  "Module                  Size  Used by",
  "nls_iso8859_1          16384  1",
  "kvm_intel             368640  0"]

def uptime : Reply :=
  .output " 10:23:01 up 1 day,  2:04,  1 user,  load average: 0.04, 0.08, 0.02"

def run (command : HostCommand) (c : Call) (m : Machine) : Outcome :=
  match command with
  | .cal => .reply m (.output c.now.date.monthCalendar)
  | .date => .ofQuery m (date c)
  | .dmesg => .reply m dmesg
  | .dmidecode => .reply m dmidecode
  | .free => .reply m (free c)
  | .hostname => .ofSystem m (hostname c)
  | .iostat => .reply m iostat
  | .lscpu => .reply m lscpu
  | .lsmod => .reply m lsmod
  | .lsof => .reply m lsof
  | .lspci => .reply m lspci
  | .lsusb => .reply m lsusb
  | .modprobe => .reply m .empty
  | .sar => .reply m sar
  | .uname => .reply m (uname c m)
  | .uptime => .reply m uptime
  | .vmstat => .reply m vmstat
  | .watch => .reply m (watch c)

end PocketUnix.Host

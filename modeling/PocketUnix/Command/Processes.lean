import PocketUnix.Command.Call
import PocketUnix.Command.Name

/-!
# Processes

Listing and ending processes, and the replies of the commands that only pretend to start some.
-/

namespace PocketUnix.Processes

/-- A number of tenths with its point. -/
def tenths (n : Nat) : String := s!"{n / 10}.{n % 10}"

def isLong (arg : String) : Bool :=
  (arg.toList.dropWhile (· == '-')).any fun c => c == 'a' || c == 'u' || c == 'e'

def longRow (p : Process) : String :=
  Text.padRight 10 p.user ++ Text.padLeft 5 s!"{p.pid}" ++ " " ++ Text.padLeft 4 (tenths p.cpu) ++
    " " ++ Text.padLeft 4 (tenths p.memory) ++ " " ++
    Text.padRight 4 (.singleton p.state.letter) ++ " " ++ p.time ++ " " ++ p.command

def shortRow (p : Process) : String :=
  Text.padLeft 5 s!"{p.pid}" ++ " pts/0    " ++ p.time ++ " " ++ p.command

def ps (c : Call) (m : Machine) : Reply :=
  if c.args.any isLong then
    .lines ("USER         PID %CPU %MEM STAT     TIME COMMAND" :: m.system.processes.map longRow)
  else .lines ("  PID TTY          TIME CMD" :: m.system.processes.map shortRow)

def topRow (p : Process) : String :=
  Text.padLeft 5 s!"{p.pid}" ++ " " ++ Text.padRight 8 p.user ++
    "  20   0  100M   10M   2000 " ++ .singleton p.state.letter ++ "   " ++ tenths p.cpu ++
    "   " ++ tenths p.memory ++ "  " ++ p.time ++ " " ++ p.command

def top (m : Machine) : Reply :=
  .lines ([
    "top - 10:30:00 up 1 day, 1 user",
    "Tasks: 105 total, 1 running, 104 sleeping",
    "%Cpu(s): 0.5 us, 0.2 sy, 99.3 id",
    "",
    "  PID USER      PR  NI    VIRT    RES    SHR S  %CPU  %MEM     TIME+ COMMAND"] ++
    m.system.processes.map topRow)

def signals : String :=
  " 1) SIGHUP\t 2) SIGINT\t 3) SIGQUIT\t 9) SIGKILL\t15) SIGTERM\t19) SIGSTOP"

/-- The largest number that a pid can be written with. -/
def pidLimit : Nat := Nat.pow 2 32 - 1

/-- The pid that the arguments of `kill` give. -/
def killTarget (c : Call) : Except Fault Nat :=
  match (c.options "sn").operand? 0 with
  | none => .error (.usage .killUsage)
  | some target =>
    match Number.read? pidLimit target with
    | none => .error (.invalid (.notJob target))
    | some pid => .ok pid

def kill (c : Call) : SystemAction :=
  if c.args.contains "-l" then return .output signals
  else do
    let pid ← .ofExcept (killTarget c)
    .update fun s =>
      match s.kill? pid with
      | none => .error (.notFound (.pid pid))
      | some s => .ok ((), s)
    return .output s!"[1]+  Terminated  {pid}"

/-- What the processes are to match. -/
def criterion (c : Call) : Except Fault String :=
  match (c.options "").operand? 0 with
  | none => .error (.usage (.noCriteria c.name))
  | some text => .ok text

/-- Ends the processes whose command satisfies `p`, and tells which they were. -/
def endWhere (p : String → Bool) : Action System (List Process) :=
  .update fun s => .ok (s.killWhere p)

def killall (c : Call) : SystemAction := do
  let name ← .ofExcept (criterion c)
  let gone ← endWhere (· == name)
  if gone.isEmpty then .fail (.notFound (.process name))
  else return .output "Terminated"

def pkill (c : Call) : SystemAction := do
  let part ← .ofExcept (criterion c)
  let _ ← endWhere (Text.contains · part)
  return .empty

def pgrep (c : Call) (m : Machine) : Answer := do
  let part ← criterion c
  let hits := m.system.processes.filter fun p => Text.contains p.command part
  .ok (.lines (hits.map fun p =>
    if (c.options "").has 'l' then s!"{p.pid} {p.command}" else s!"{p.pid}"))

def renice (c : Call) : Reply :=
  let o := c.options "np"
  let priority := ((o.value? 'n').or (o.operand? 0)).getD "10"
  let pid := ((o.value? 'p').or (o.operand? 1)).getD "1001"
  .output s!"{pid} (process ID) old priority 0, new priority {priority}"

def crontab (c : Call) (m : Machine) : Answer :=
  let o := c.options ""
  if o.has 'l' then .ok (.output "0 5 * * * /backup.sh")
  else if o.has 'e' then .ok (.output s!"no crontab for {m.user} - using an empty one")
  else .error (.usage .noCrontabFile)

def systemCalls : String := Text.joinLines [
  "execve(\"/bin/ls\", [\"ls\"], 0x7ffd...) = 0",
  "brk(NULL) = 0x55...",
  "access(\"/etc/ld.so.nohwcap\", F_OK) = -1 ENOENT (No such file or directory)"]

def processTree : String := Text.joinLines [
  "systemd─┬─sshd───sshd───bash───pstree",
  "        └─nginx"]

def jobNotice : String := Text.joinLines [
  "warning: commands will be executed using /bin/sh",
  "job 2 at Mon Jan 1 11:00:00 2024"]

/-- All commands on processes but `nice`, which runs another command. -/
def run (command : ProcessCommand) (c : Call) (m : Machine) : Outcome :=
  match command with
  | .ps => .reply m (ps c m)
  | .top => .reply m (top m)
  | .htop => .reply m (top m)
  | .kill => .ofSystem m (kill c)
  | .killall => .ofSystem m (killall c)
  | .pkill => .ofSystem m (pkill c)
  | .pgrep => .ofQuery m (pgrep c m)
  | .renice => .reply m (renice c)
  | .crontab => .ofQuery m (crontab c m)
  | .nice => .reply m (.output "0")
  | .nohup => .reply m (.output "nohup: ignoring input and appending output to 'nohup.out'")
  | .jobs => .reply m (.output "[1]+  Running                 bash &")
  | .bg => .reply m (.output "[1]+ bash &")
  | .fg => .reply m (.output "bash")
  | .pstree => .reply m (.output processTree)
  | .strace => .reply m (.output systemCalls)
  | .systemctl => .reply m (.info "Systemd is running in container mode. Service status OK.")
  | .service => .reply m (.info "Systemd is running in container mode. Service status OK.")
  | .at => .reply m (.output jobNotice)
  | .tmux => .reply m (.output "[tmux] Session 0 created.")

end PocketUnix.Processes

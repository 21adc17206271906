import PocketUnix.Command.Name
import PocketUnix.Command.Writing
import PocketUnix.Text.Case

/-!
# Network commands

Only downloads change anything; logging in elsewhere is forbidden, and all else is a report.
-/

namespace PocketUnix.Net

def interfaces (n : Network) : Reply := .lines [
  "1: lo: <LOOPBACK,UP,LOWER_UP> mtu 65536 state UNKNOWN ",
  "    link/loopback 00:00:00:00:00:00 brd 00:00:00:00:00:00",
  "    inet 127.0.0.1/8 scope host lo",
  s!"2: {n.interface}: <BROADCAST,MULTICAST,UP,LOWER_UP> mtu 1500 state UP",
  s!"    link/ether {n.hardware} brd ff:ff:ff:ff:ff:ff",
  s!"    inet {n.address}/24 brd 192.168.1.255 scope global dynamic"]

/-- The replies to the four packets, with their times. -/
def ping (host : String) : Reply :=
  .lines ([s!"PING {host} ({host}) 56(84) bytes of data."] ++
    [("1", "14.2"), ("2", "15.1"), ("3", "13.8"), ("4", "14.5")].map (fun (number, time) =>
      s!"64 bytes from {host}: icmp_seq={number} ttl=57 time={time} ms") ++
    ["", s!"--- {host} ping statistics ---",
      "4 packets transmitted, 4 received, 0% packet loss, time 3004ms"])

def sockets (n : Network) : Reply := .lines [
  "State      Recv-Q Send-Q Local Address:Port  Peer Address:Port Process",
  "LISTEN     0      0      0.0.0.0:22          0.0.0.0:*         sshd",
  s!"ESTAB      0      0      {n.address}:50432  1.1.1.1:443       curl"]

def nameAnswer (host : String) : Reply := .lines [
  "; <<>> DiG 9.16.1-Ubuntu <<>> " ++ host,
  ";; ANSWER SECTION:",
  (if host = "" then "domain.com" else host) ++ ". 300 IN A 93.184.216.34"]

def route (host : String) : Reply := .lines [
  s!"traceroute to {host} (142.250.190.46), 30 hops max",
  " 1  192.168.1.1 (192.168.1.1)  2.345 ms",
  " 2  10.0.0.1 (10.0.0.1)  5.678 ms",
  " 3  142.250.190.46 (142.250.190.46)  15.234 ms"]

def packets (n : Network) : Reply := .lines [
  "tcpdump: verbose output suppressed, use -v or -vv",
  s!"listening on {n.interface}, link-type EN10MB (Ethernet), capture size 262144 bytes",
  s!"10:00:00.123456 IP {n.address}.54321 > 1.1.1.1.80: Flags [S], seq 123456789"]

def ports (host : String) : Reply := .lines [
  "Starting Nmap 7.80 ( https://nmap.org ) at 2024-01-01 10:00 UTC",
  "Nmap scan report for " ++ host,
  "Host is up (0.00045s latency).",
  "Not shown: 998 closed ports",
  "PORT   STATE SERVICE",
  "22/tcp open  ssh",
  "80/tcp open  http"]

def domain (name : String) : Reply := .lines [
  "Domain Name: " ++ name,
  "Registry Domain ID: 123456789_DOMAIN_COM-VRSN",
  "Registrar: Example Registrar, LLC",
  "Creation Date: 1995-08-14T04:00:00Z"]

def link (interface : String) : Reply := .lines [
  s!"Settings for {interface}:",
  "\tSpeed: 1000Mb/s",
  "\tDuplex: Full",
  "\tLink detected: yes"]

def run (command : NetworkCommand) (c : Call) (m : Machine) : Outcome :=
  let network := m.system.network
  let first := (c.options "").operand? 0
  match command with
  | .ip => .reply m (interfaces network)
  | .ifconfig => .reply m (interfaces network)
  | .ping =>
    match first with
    | none => .fail m (.usage .noDestination)
    | some host => .reply m (ping host)
  | .curl => .ofTree m (Writing.download c m)
  | .wget => .ofTree m (Writing.download c m)
  | .ssh => .fail m (.restricted (.remoteLogin (first.getD "remote")))
  | .scp =>
    .reply m (.output "file.txt                                100%   28     0.0KB/s   00:00")
  | .nc => .reply m (.info "Listening on [0.0.0.0] (family 0, port 8080)")
  | .netstat => .reply m (sockets network)
  | .ss => .reply m (sockets network)
  | .dig => .reply m (nameAnswer (first.getD ""))
  | .nslookup => .reply m (nameAnswer (first.getD ""))
  | .traceroute => .reply m (route (first.getD "google.com"))
  | .tcpdump => .reply m (packets network)
  | .nmap => .reply m (ports (first.getD "localhost"))
  | .whois => .reply m (domain ((first.map Text.toUpper).getD "EXAMPLE.COM"))
  | .ethtool => .reply m (link (first.getD "eth0"))

end PocketUnix.Net

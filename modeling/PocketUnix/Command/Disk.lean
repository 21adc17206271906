import PocketUnix.Command.Call
import PocketUnix.Command.Name

/-!
# Disks

Fixed reports on disks. Only the superuser may mount anything.
-/

namespace PocketUnix.Disk

def df (c : Call) : Reply :=
  if (c.options "").has 'h' then
    .lines [
      "Filesystem      Size  Used Avail Use% Mounted on",
      "/dev/sda1       7.9G  3.9G  4.0G  49% /"]
  else
    .lines [
      "Filesystem     1K-blocks    Used Available Use% Mounted on",
      "/dev/sda1        8192000 4000000   4192000  49% /"]

def fdisk : Reply := .lines [
  "Disk /dev/sda: 50 GiB, 53687091200 bytes, 104857600 sectors",
  "Device     Boot Start       End   Sectors Size Id Type",
  "/dev/sda1  *     2048 104855551 104853504  50G 83 Linux"]

def lsblk : Reply := .lines [
  "NAME   MAJ:MIN RM  SIZE RO TYPE MOUNTPOINT",
  "sda      8:0    0   50G  0 disk",
  "└─sda1   8:1    0   50G  0 part /"]

def mounts : Reply := .lines [
  "/dev/sda1 on / type ext4 (rw,relatime)",
  "tmpfs on /run type tmpfs (rw,nosuid,nodev,mode=755)"]

/-- Without operands the reply is a listing. -/
def mount (listing : Reply) (c : Call) (m : Machine) : Answer :=
  if (c.options "").operands.isEmpty then .ok listing
  else if m.system.isSuperuser then .ok .empty
  else .error (.invalid (.mountsUnprivileged c.name))

def fsck : Reply := .lines [
  "fsck from util-linux 2.34",
  "/dev/sda1: clean, 123456/3276800 files, 456789/13107200 blocks"]

def mkfs : Reply := .lines [
  "mke2fs 1.45.5 (07-Jan-2020)",
  "Creating filesystem with 13107200 4k blocks and 3276800 inodes"]

def parted : Reply := .lines [
  "Model: ATA VBOX HARDDISK (scsi)",
  "Disk /dev/sda: 53.7GB",
  "Sector size (logical/physical): 512B/512B",
  "Partition Table: msdos"]

def run (command : DiskCommand) (c : Call) (m : Machine) : Outcome :=
  match command with
  | .df => .reply m (df c)
  | .fdisk => .reply m fdisk
  | .lsblk => .reply m lsblk
  | .mount => .ofQuery m (mount mounts c m)
  | .umount => .ofQuery m (mount .empty c m)
  | .fsck => .reply m fsck
  | .mkfs => .reply m mkfs
  | .parted => .reply m parted
  | .blkid =>
    .reply m (.output
      "/dev/sda1: UUID=\"e4b6e5d8-...\" TYPE=\"ext4\" PARTUUID=\"1234abcd-01\"")
  | .mkswap =>
    .reply m (.output "Setting up swapspace version 1, size = 4 GiB (4294963200 bytes)")
  | .cfdisk => .reply m (.output "[Interactive Partition Editor Mock]")
  | .swapon => .reply m .empty
  | .sync => .reply m .empty

end PocketUnix.Disk

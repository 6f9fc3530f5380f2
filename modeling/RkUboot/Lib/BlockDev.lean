import RkUboot.Lib.Mem

set_option autoImplicit false

/-! # A block device with scripted failures

The medium is a flat `Mem`; block `lba` is the 512 bytes from `512 * lba`. Which transfers fail is
not computed but given: `script` lists the outcomes of the coming transfers, and once it is used up
every transfer completes. So a device whose script is `[]` is one on which no I/O error occurs, and
a statement about every script is one about every failure pattern. A `torn` write is what a power
loss leaves behind: the first blocks of the transfer, in increasing order, and nothing more. -/

/-- The outcome of one transfer. -/
inductive IoResult where
  | ok
  | fail
  | torn (k : Nat)
  deriving DecidableEq, Repr

/-- A medium together with the outcomes of the transfers to come. -/
structure BlockDev where
  disk : Mem
  script : List IoResult

namespace BlockDev

/-- The outcome of the next transfer. -/
def next (dev : BlockDev) : IoResult := dev.script.headD .ok

/-- How many of the `n` blocks of the next write reach the medium. -/
def landed (dev : BlockDev) (n : Nat) : Nat :=
  match dev.next with
  | .ok => n
  | .fail => 0
  | .torn k => min k n

/-- Read `n` blocks from `lba` to address `a` of `buf`; a failed read leaves the buffer alone. -/
def read (dev : BlockDev) (lba n : Nat) (buf : Mem) (a : Nat) : Bool × Mem × BlockDev :=
  match dev.next with
  | .ok => (true, buf.copy a dev.disk (512 * lba) (512 * n), { dev with script := dev.script.tail })
  | _ => (false, buf, { dev with script := dev.script.tail })

/-- Write `n` blocks from address `a` of `buf` to `lba`. -/
def write (dev : BlockDev) (lba n : Nat) (buf : Mem) (a : Nat) : Bool × BlockDev :=
  (decide (dev.next = .ok),
    { disk := dev.disk.copy (512 * lba) buf a (512 * dev.landed n), script := dev.script.tail })

variable {dev : BlockDev} (lba n : Nat) (buf : Mem) (a : Nat)

theorem next_of_nil (h : dev.script = []) : dev.next = .ok := by
  simp [next, h]

/-- Without scripted failures a write lands completely. -/
theorem landed_of_nil (h : dev.script = []) : dev.landed n = n := by
  simp only [landed, next_of_nil h]

/-- Without scripted failures a read delivers the blocks. -/
theorem read_of_nil (h : dev.script = []) :
    dev.read lba n buf a = (true, buf.copy a dev.disk (512 * lba) (512 * n), dev) := by
  obtain ⟨disk, script⟩ := dev
  subst h
  rfl

/-- A read leaves the medium alone. -/
theorem read_disk (dev : BlockDev) : (dev.read lba n buf a).2.2.disk = dev.disk := by
  unfold read
  split <;> rfl

/-- Without scripted failures a write puts every block on the medium. -/
theorem write_of_nil (h : dev.script = []) :
    dev.write lba n buf a
      = (true, { dev with disk := dev.disk.copy (512 * lba) buf a (512 * n) }) := by
  obtain ⟨disk, script⟩ := dev
  subst h
  rfl

end BlockDev

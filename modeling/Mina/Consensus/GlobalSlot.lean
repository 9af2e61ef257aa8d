/-
Slots, epochs and sub-windows (`consensus/constants.ml`, `global_slot.ml`,
`global_sub_window.ml`). Numbers are of 32 bits and wrap around, as the
source's do; the constants are those that the modelled functions read.
-/
import Mina.Base.Currency

namespace Mina.Consensus

/-- `Mina_numbers.Length`. -/
abbrev Length := Fin (2 ^ 32)

/-- The consensus constants. -/
structure Constants where
  slotsPerSubWindow : Length
  subWindowsPerWindow : Length
  slotsPerEpoch : Length
  /-- The first slot after the grace period. -/
  gracePeriodEnd : Length

namespace Length

/-- `UInt32.of_int`. -/
def ofInt (n : Nat) : Length := Fin.ofNat (2 ^ 32) n

/-- `UInt32.succ`. -/
def succ (n : Length) : Length := n + 1

theorem ofInt_val {n : Nat} (hn : n < 2 ^ 32) : (ofInt n).val = n := Nat.mod_eq_of_lt hn

theorem succ_val {n : Length} (hn : n.val + 1 < 2 ^ 32) : (succ n).val = n.val + 1 := by
  have hadd : (succ n).val = (n.val + 1) % 2 ^ 32 := Fin.val_add n 1
  rw [hadd, Nat.mod_eq_of_lt hn]

end Length

/-- `Global_slot`: a slot, and the number of slots of an epoch. -/
structure GlobalSlot where
  slotNumber : Length
  slotsPerEpoch : Length

namespace GlobalSlot

def epoch (t : GlobalSlot) : Length := t.slotNumber / t.slotsPerEpoch

def slot (t : GlobalSlot) : Length := t.slotNumber % t.slotsPerEpoch

end GlobalSlot

namespace GlobalSubWindow

def ofGlobalSlot (constants : Constants) (s : GlobalSlot) : Length := s.slotNumber / constants.slotsPerSubWindow

/-- The index of a sub-window in a window. -/
def subWindow (constants : Constants) (t : Length) : Length := t % constants.subWindowsPerWindow

def add (a b : Length) : Length := a + b

theorem ofGlobalSlot_val (constants : Constants) (s : GlobalSlot) :
    (ofGlobalSlot constants s).val = s.slotNumber.val / constants.slotsPerSubWindow.val := rfl

theorem subWindow_val (constants : Constants) (t : Length) :
    (subWindow constants t).val = t.val % constants.subWindowsPerWindow.val := rfl

theorem add_val {a b : Length} (h : a.val + b.val < 2 ^ 32) : (add a b).val = a.val + b.val := by
  rw [add, Fin.val_add, Nat.mod_eq_of_lt h]

end GlobalSubWindow

end Mina.Consensus

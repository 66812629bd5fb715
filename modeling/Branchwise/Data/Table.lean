/-!
# Tables in insertion order

A table keeps its entries in the order in which their keys were first put.  Putting a key again, or
one that is equal to it, replaces its value and keeps the key and its place; erasing a key and
putting it again moves it to the end.
-/

namespace Branchwise

structure Table (κ : Type) (α : Type) where
  entries : List (κ × α)
deriving Repr, Inhabited

namespace Table

variable {κ α β : Type} [BEq κ]

def empty : Table κ α := ⟨[]⟩

def keys (t : Table κ α) : List κ := t.entries.map Prod.fst

def values (t : Table κ α) : List α := t.entries.map Prod.snd

def size (t : Table κ α) : Nat := t.entries.length

def get? (t : Table κ α) (k : κ) : Option α := (t.entries.find? fun e => e.1 == k).map Prod.snd

def contains (t : Table κ α) (k : κ) : Bool := t.entries.any fun e => e.1 == k

def putList (k : κ) (v : α) : List (κ × α) → List (κ × α)
  | [] => [(k, v)]
  | e :: es => if e.1 == k then (e.1, v) :: es else e :: putList k v es

def put (t : Table κ α) (k : κ) (v : α) : Table κ α := ⟨putList k v t.entries⟩

def putNew (t : Table κ α) (k : κ) (v : α) : Table κ α := if t.contains k then t else t.put k v

def erase (t : Table κ α) (k : κ) : Table κ α := ⟨t.entries.filter fun e => !(e.1 == k)⟩

def adjust (t : Table κ α) (k : κ) (f : α → α) : Table κ α :=
  ⟨t.entries.map fun e => if e.1 == k then (e.1, f e.2) else e⟩

/-- The table of a list of entries, where a later entry replaces the value of an earlier one. -/
def ofList (es : List (κ × α)) : Table κ α := es.foldl (fun t e => t.put e.1 e.2) empty

def mapValues (f : α → β) (t : Table κ α) : Table κ β := ⟨t.entries.map fun e => (e.1, f e.2)⟩

end Table

/-! ## Sets of natural numbers

A finite set of natural numbers is kept as one number: its binary digits tell of each number
whether it is in the set. -/

structure NatSet where
  bits : Nat
deriving DecidableEq, Repr, Inhabited

namespace NatSet

def empty : NatSet := ⟨0⟩

def contains (s : NatSet) (n : Nat) : Bool := s.bits.testBit n

def insert (s : NatSet) (n : Nat) : NatSet := ⟨s.bits ||| 1 <<< n⟩

theorem contains_empty (n : Nat) : empty.contains n = false := Nat.zero_testBit n

theorem contains_insert (s : NatSet) (m n : Nat) :
    (s.insert m).contains n = (s.contains n || m == n) := by
  simp only [contains, insert, Nat.testBit_or, Nat.one_shiftLeft, Nat.testBit_two_pow]
  rfl

end NatSet

end Branchwise

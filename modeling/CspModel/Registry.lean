/-! # Registries

A registry hands out keys in the order in which values are added to it: the
first value gets the key 0, the next one 1, and so on.  No value is ever taken
out, so a key stays valid.
-/
namespace CspModel

/-- Values under the keys 0, 1, 2, …, in the order they were added. -/
structure Registry (α : Type) where
  /-- The values, each at the position that is its key. -/
  entries : Array α := #[]
deriving DecidableEq

namespace Registry

variable {α : Type}

/-- The number of values, which is also the next key to be handed out. -/
def size (r : Registry α) : Nat := r.entries.size

def isEmpty (r : Registry α) : Bool := r.entries.isEmpty

/-- Adds a value under the next key. -/
def push (r : Registry α) (value : α) : Registry α := ⟨r.entries.push value⟩

/-- The value under a key that was handed out. -/
def get? (r : Registry α) (key : Nat) : Option α := r.entries[key]?

/-- Replaces the value under a key that was handed out; there is no registry for
another key. -/
def set? (r : Registry α) (key : Nat) (value : α) : Option (Registry α) :=
  if key < r.size then some ⟨r.entries.setIfInBounds key value⟩ else none

/-- The values in the order of their keys. -/
def toList (r : Registry α) : List α := r.entries.toList

/-- The keys with their values, in order. -/
def enumerate (r : Registry α) : List (Nat × α) :=
  r.toList.zipIdx.map fun (value, key) => (key, value)

/-- The first key whose value satisfies the test. -/
def findKey? (r : Registry α) (test : α → Bool) : Option Nat := r.entries.findIdx? test

@[simp] theorem toList_push (r : Registry α) (value : α) :
    (r.push value).toList = r.toList ++ [value] := by
  simp [push, toList]

theorem get?_push_size (r : Registry α) (value : α) :
    (r.push value).get? r.size = some value := by
  simp [push, get?, size]

theorem get?_push_of_lt {r : Registry α} {key : Nat} (value : α) (h : key < r.size) :
    (r.push value).get? key = r.get? key := by
  unfold size at h
  simp [push, get?, Array.getElem?_push, Nat.ne_of_lt h]

end Registry
end CspModel

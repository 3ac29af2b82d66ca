import Std.Data.TreeMap
import ReversePolish.Value

namespace ReversePolish

structure Scope where
  bindings : Std.TreeMap String Value := ∅

namespace Scope

def find? (s : Scope) (name : String) : Option Value :=
  s.bindings[name]?

def bind (s : Scope) (name : String) (v : Value) : Scope :=
  ⟨s.bindings.insert name v⟩

@[simp] theorem find?_empty (name : String) : ({} : Scope).find? name = none := by
  simp [find?]

@[simp] theorem find?_bind (s : Scope) (name other : String) (v : Value) :
    (s.bind name v).find? other = if name = other then some v else s.find? other := by
  simp [bind, find?, Std.TreeMap.getElem?_insert]

def erase (s : Scope) (name : String) : Scope :=
  ⟨s.bindings.erase name⟩

@[simp] theorem find?_erase (s : Scope) (name other : String) :
    (s.erase name).find? other = if name = other then none else s.find? other := by
  simp [erase, find?, Std.TreeMap.getElem?_erase]

def size (s : Scope) : Nat :=
  s.bindings.size

def toList (s : Scope) : List (String × Value) :=
  s.bindings.toList

def bindAll (s : Scope) (pairs : List (String × Value)) : Scope :=
  pairs.foldl (fun s (name, v) => s.bind name v) s

end Scope

end ReversePolish

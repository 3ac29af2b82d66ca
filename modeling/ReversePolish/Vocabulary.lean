import Std.Data.TreeMap
import ReversePolish.Operation

namespace ReversePolish

structure Vocabulary where
  words : Std.TreeMap String Operation := ∅

namespace Vocabulary

def find? (v : Vocabulary) (word : String) : Option Operation :=
  v.words[word]?

def insert (v : Vocabulary) (word : String) (op : Operation) : Vocabulary :=
  ⟨v.words.insert word op⟩

@[simp] theorem find?_insert (v : Vocabulary) (word other : String) (op : Operation) :
    (v.insert word op).find? other = if word = other then some op else v.find? other := by
  simp [insert, find?, Std.TreeMap.getElem?_insert]

def size (v : Vocabulary) : Nat :=
  v.words.size

def toList (v : Vocabulary) : List (String × Operation) :=
  v.words.toList

def standard : Vocabulary :=
  Operation.all.foldl (fun v op => v.insert op.symbol op) {}

theorem find?_standard (op : Operation) : standard.find? op.symbol = some op := by
  cases op <;> rfl

end Vocabulary

theorem Operation.symbol_injective : Function.Injective Operation.symbol := by
  intro a b h
  have h := congrArg Vocabulary.standard.find? h
  simpa only [Vocabulary.find?_standard, Option.some.injEq] using h

end ReversePolish

/-! Members are functions or properties. Queries also know a third kind, nested classifiers, which no scope of
this library holds. -/
namespace Inheritance

inductive MemberKind where
  | function
  | property
  deriving DecidableEq, Repr

namespace MemberKind

/-- The tag that keeps a function and a property of one name apart in their identities. -/
def tag : MemberKind → UInt8
  | function => 0
  | property => 1

instance : ToString MemberKind where
  toString
    | function => "fun"
    | property => "val"

end MemberKind

structure KindSet where
  functions : Bool
  properties : Bool
  classifiers : Bool
  deriving DecidableEq, Repr

namespace KindSet

instance : EmptyCollection KindSet := ⟨⟨false, false, false⟩⟩

def onlyFunctions : KindSet := ⟨true, false, false⟩
def onlyProperties : KindSet := ⟨false, true, false⟩
def onlyClassifiers : KindSet := ⟨false, false, true⟩

def callables : KindSet := ⟨true, true, false⟩

def all : KindSet := ⟨true, true, true⟩

/-- The three low bits of a number, and nothing of the others. -/
def ofBits (n : Nat) : KindSet := ⟨n.testBit 0, n.testBit 1, n.testBit 2⟩

/-- The set written as a number, or `none` if the number has further bits. -/
def ofBits? (n : Nat) : Option KindSet := if n < 8 then some (ofBits n) else none

def bits (k : KindSet) : Nat := k.functions.toNat + 2 * k.properties.toNat + 4 * k.classifiers.toNat

instance : Union KindSet where
  union a b := ⟨a.functions || b.functions, a.properties || b.properties, a.classifiers || b.classifiers⟩

instance : Inter KindSet where
  inter a b := ⟨a.functions && b.functions, a.properties && b.properties, a.classifiers && b.classifiers⟩

def complement (k : KindSet) : KindSet := ⟨!k.functions, !k.properties, !k.classifiers⟩

instance : SDiff KindSet where
  sdiff a b := a ∩ b.complement

instance : HasSubset KindSet := ⟨fun a b => a ∩ b = a⟩

instance (a b : KindSet) : Decidable (a ⊆ b) := inferInstanceAs (Decidable (a ∩ b = a))

def intersects (a b : KindSet) : Bool := a ∩ b ≠ ∅

def single : MemberKind → KindSet
  | .function => onlyFunctions
  | .property => onlyProperties

def accepts (k : KindSet) : MemberKind → Bool
  | .function => k.functions
  | .property => k.properties

theorem accepts_iff (k : KindSet) (kind : MemberKind) : k.accepts kind = true ↔ single kind ⊆ k := by
  obtain ⟨f, p, c⟩ := k
  cases kind <;> cases f <;> cases p <;> cases c <;> decide

theorem ofBits_bits (k : KindSet) : ofBits k.bits = k := by
  obtain ⟨f, p, c⟩ := k
  cases f <;> cases p <;> cases c <;> rfl

end KindSet

end Inheritance

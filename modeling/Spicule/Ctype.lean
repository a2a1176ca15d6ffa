import Mathlib

-- The classes of the C locale, for the bytes the callers cast to unsigned char.
namespace Spicule.Ctype

-- A text is checked byte by byte, not all bytes for being in it.
instance (priority := 2000) decidableEachByte (p : UInt8 → Prop) [DecidablePred p] (s : List UInt8) :
    Decidable (∀ c ∈ s, p c) := List.decidableBAll p s

def isblank (c : UInt8) : Bool := c == 32 || c == 9

def isspace (c : UInt8) : Bool := c == 32 || c.toUInt32 - 9 < 5

def isdigit (c : UInt8) : Bool := c.toUInt32 - 48 < 10

def isxdigit (c : UInt8) : Bool := isdigit c || (c.toUInt32 ||| 32) - 97 < 6

def isupper (c : UInt8) : Bool := c.toUInt32 - 65 < 26

def isalpha (c : UInt8) : Bool := (c.toUInt32 ||| 32) - 97 < 26

def isalnum (c : UInt8) : Bool := isalpha c || isdigit c

def isprint (c : UInt8) : Bool := c.toUInt32 - 32 < 95

def tolower (c : UInt8) : UInt8 := if isupper c then c ||| 32 else c

theorem forall_byte {P : UInt8 → Prop} (each : ∀ i : Fin 256, P (UInt8.ofNat i.val)) (c : UInt8) : P c := by
  have here := each ⟨c.toNat, c.toNat_lt⟩
  rwa [UInt8.ofNat_toNat] at here

theorem class_ranges : ∀ c : UInt8, (isdigit c = true ↔ 48 ≤ c.toNat ∧ c.toNat ≤ 57) ∧
    (isalpha c = true ↔ (65 ≤ c.toNat ∧ c.toNat ≤ 90) ∨ (97 ≤ c.toNat ∧ c.toNat ≤ 122)) ∧
    (isxdigit c = true ↔
      (48 ≤ c.toNat ∧ c.toNat ≤ 57) ∨ (65 ≤ c.toNat ∧ c.toNat ≤ 70) ∨ (97 ≤ c.toNat ∧ c.toNat ≤ 102)) ∧
    (isspace c = true ↔ c.toNat = 32 ∨ (9 ≤ c.toNat ∧ c.toNat ≤ 13)) := forall_byte (by decide +kernel)

theorem isdigit_iff (c : UInt8) : isdigit c = true ↔ 48 ≤ c.toNat ∧ c.toNat ≤ 57 := (class_ranges c).1

end Spicule.Ctype

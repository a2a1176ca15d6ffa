import Spicule.Lib.Canonical

-- The DEFLATE format: which bits stand for which tokens, and what these stand for.
namespace Spicule.Deflate
open List Bits Canonical Nat

inductive Token where
  | literal (byte : UInt8)
  | copy (length distance : Nat)
deriving DecidableEq, Repr

-- A copy longer than its distance goes round in the bytes it starts from.
def copied (out : List UInt8) (distance length : Nat) : List UInt8 :=
  (List.range length).map fun i => out.getD (out.length - distance + i % distance) 0

def Token.apply (out : List UInt8) : Token → List UInt8
  | .literal byte => out ++ [byte]
  | .copy length distance => out ++ copied out distance length

def expandFrom (out : List UInt8) (tokens : List Token) : List UInt8 := tokens.foldl Token.apply out

def expand (tokens : List Token) : List UInt8 := expandFrom [] tokens

variable (out : List UInt8)

@[simp] theorem copied_length (distance length : Nat) : (copied out distance length).length = length := by
  rw [copied, length_map, length_range]

theorem copied_succ {distance length : Nat} (back : 0 < distance) (inside : distance ≤ out.length) :
    (out ++ [out.getD (out.length - distance) 0]) ++
        copied (out ++ [out.getD (out.length - distance) 0]) distance length =
      out ++ copied out distance (length + 1) := by
  rw [append_assoc, copied, copied, range_succ_eq_map, map_cons, map_map, zero_mod, add_zero,
    singleton_append]
  congr 2
  apply map_congr_left
  intro i _
  have turn := mod_lt i back
  rw [Function.comp_apply, succ_eq_add_one, length_append, length_singleton]
  by_cases wraps : i % distance + 1 = distance
  · have whole : (i + 1) % distance = 0 := by rw [← mod_add_mod, wraps, mod_self]
    rw [whole, add_zero, show out.length + 1 - distance + i % distance = out.length by omega]
    simp
  · have next : (i + 1) % distance = i % distance + 1 := by rw [← mod_add_mod, mod_eq_of_lt (by omega)]
    rw [next, show out.length + 1 - distance + i % distance = out.length - distance + (i % distance + 1) by omega]
    simp only [List.getD]
    rw [List.getElem?_append_left (by omega)]

theorem expand_from_grows (tokens : List Token) : out.length ≤ (expandFrom out tokens).length := by
  induction tokens generalizing out with
  | nil => exact le_refl _
  | cons token rest ih =>
    have grown := ih (token.apply out)
    have step : out.length ≤ (token.apply out).length := by
      cases token <;> simp [Token.apply]
    exact le_trans step grown

theorem expand_from_literals (bytes : List UInt8) : expandFrom out (bytes.map .literal) = out ++ bytes := by
  induction bytes generalizing out with
  | nil => exact (append_nil out).symm
  | cons byte bytes ih =>
    rw [map_cons, expandFrom, foldl_cons]
    exact (ih (out ++ [byte])).trans (by rw [append_assoc, singleton_append])

theorem expand_from_append (tokens others : List Token) :
    expandFrom out (tokens ++ others) = expandFrom (expandFrom out tokens) others := foldl_append

def Reaches (out : List UInt8) : List Token → Prop
  | [] => True
  | .literal byte :: rest => Reaches (out ++ [byte]) rest
  | .copy length distance :: rest =>
    (0 < distance ∧ distance ≤ out.length) ∧ Reaches (out ++ copied out distance length) rest

theorem reaches_append (tokens others : List Token) :
    Reaches out (tokens ++ others) ↔ Reaches out tokens ∧ Reaches (expandFrom out tokens) others := by
  induction tokens generalizing out with
  | nil => exact Iff.of_eq (true_and _).symm
  | cons token rest ih =>
    cases token with
    | literal byte => exact ih (out ++ [byte])
    | copy length distance =>
      simp only [cons_append, Reaches, ih, and_assoc]
      rfl

def maxLength : Nat := 15

-- Length codes from 257 on: eight of one length each, four to each power of two, and 258.
def lengthExtra (row : Nat) : Nat := if row < 8 ∨ row = 28 then 0 else (row - 4) / 4

def lengthBase (row : Nat) : Nat :=
  if row < 8 then 3 + row else if row = 28 then 258 else 3 + (4 + row % 4) * 2 ^ lengthExtra row

-- Four distance codes of one distance each, then two to each power of two.
def distanceExtra (row : Nat) : Nat := if row < 4 then 0 else (row - 2) / 2

def distanceBase (row : Nat) : Nat := if row < 4 then 1 + row else 1 + (2 + row % 2) * 2 ^ distanceExtra row

inductive TokenBits (lit dist : List Nat) : Token → List Bool → Prop where
  | literal (byte : UInt8) (coded : Coded lit byte.toNat) : TokenBits lit dist (.literal byte) (codeBits lit byte.toNat)
  | copy (row extra drow dextra : Nat) (inside : row < 29) (coded : Coded lit (257 + row))
      (fits : extra < 2 ^ lengthExtra row) (dinside : drow < 30) (dcoded : Coded dist drow)
      (dfits : dextra < 2 ^ distanceExtra drow) :
      TokenBits lit dist (.copy (lengthBase row + extra) (distanceBase drow + dextra))
        (codeBits lit (257 + row) ++ (lsb (lengthExtra row) extra ++
          (codeBits dist drow ++ lsb (distanceExtra drow) dextra)))

inductive SymbolBits (lit dist : List Nat) : List Token → List Bool → Prop where
  | ended (coded : Coded lit 256) : SymbolBits lit dist [] (codeBits lit 256)
  | token (first : Token) (rest : List Token) (front back : List Bool) (here : TokenBits lit dist first front)
      (behind : SymbolBits lit dist rest back) : SymbolBits lit dist (first :: rest) (front ++ back)

def fixedLit : List Nat :=
  (List.range 288).map fun sym => if sym < 144 then 8 else if sym < 256 then 9 else if sym < 280 then 7 else 8

def fixedDist : List Nat := List.replicate 32 5

-- A run: its symbol, its extra bits, its least length and what it repeats.
inductive Run (before : List Nat) : Nat → Nat → Nat → Nat → Prop where
  | again (previous : Nat) (last : before.getLast? = some previous) : Run before 16 2 3 previous
  | zeros : Run before 17 3 3 0
  | manyZeros : Run before 18 7 11 0

inductive LengthBits (clen : List Nat) : List Nat → List Nat → List Bool → Prop where
  | done (before : List Nat) : LengthBits clen before [] []
  | one (before rest : List Nat) (len : Nat) (back : List Bool) (small : len < 16) (coded : Coded clen len)
      (behind : LengthBits clen (before ++ [len]) rest back) :
      LengthBits clen before (len :: rest) (codeBits clen len ++ back)
  | run (before rest : List Nat) (sym width least fill more : Nat) (back : List Bool)
      (kind : Run before sym width least fill) (small : more < 2 ^ width) (coded : Coded clen sym)
      (behind : LengthBits clen (before ++ List.replicate (more + least) fill) rest back) :
      LengthBits clen before (List.replicate (more + least) fill ++ rest) (codeBits clen sym ++ (lsb width more ++ back))

def lengthOrder : List Nat := [16, 17, 18, 0, 8, 7, 9, 6, 10, 5, 11, 4, 12, 3, 13, 2, 14, 1, 15]

-- A dynamic block's two codes, and the code for their lengths of which the first `sent + 4`
-- in the order of transmission are sent.
structure Tables where
  lit : List Nat
  dist : List Nat
  clen : List Nat
  sent : Nat
  lit_count : 257 ≤ lit.length ∧ lit.length < 257 + 32
  dist_count : 1 ≤ dist.length ∧ dist.length < 1 + 32
  clen_count : clen.length = 19
  sent_small : sent < 16
  clen_small : ∀ len ∈ clen, len < 8
  clen_sent : ∀ sym ∈ lengthOrder.drop (sent + 4), clen.getD sym 0 = 0
  lit_code : PrefixCode lit maxLength
  dist_code : PrefixCode dist maxLength
  clen_code : PrefixCode clen maxLength

def Tables.sentBits (t : Tables) : List Bool := (lengthOrder.take (t.sent + 4)).flatMap fun sym => lsb 3 (t.clen.getD sym 0)

-- A block `start` bits into the stream, after its final-block bit. Stored bytes begin on
-- a byte boundary, behind padding of any value.
inductive BlockBits (start : Nat) : List Token → List Bool → Prop where
  | stored (padding : List Bool) (bytes : List UInt8) (short : bytes.length < 2 ^ 16) (few : padding.length < 8)
      (aligned : (start + 2 + padding.length) % 8 = 0) :
      BlockBits start (bytes.map .literal)
        (lsb 2 0 ++ (padding ++ (lsb 16 bytes.length ++ (lsb 16 (2 ^ 16 - 1 - bytes.length) ++ bits bytes))))
  | fixed (tokens : List Token) (symbols : List Bool) (coded : SymbolBits fixedLit fixedDist tokens symbols) :
      BlockBits start tokens (lsb 2 1 ++ symbols)
  | dynamic (t : Tables) (tokens : List Token) (lengths symbols : List Bool)
      (described : LengthBits t.clen [] (t.lit ++ t.dist) lengths) (coded : SymbolBits t.lit t.dist tokens symbols) :
      BlockBits start tokens
        (lsb 2 2 ++ (lsb 5 (t.lit.length - 257) ++ (lsb 5 (t.dist.length - 1) ++ (lsb 4 t.sent ++
          (t.sentBits ++ (lengths ++ symbols))))))

inductive StreamBits : Nat → List Token → List Bool → Prop where
  | last (start : Nat) (tokens : List Token) (block : List Bool) (coded : BlockBits (start + 1) tokens block) :
      StreamBits start tokens (true :: block)
  | more (start : Nat) (tokens others : List Token) (block rest : List Bool)
      (coded : BlockBits (start + 1) tokens block) (behind : StreamBits (start + 1 + block.length) others rest) :
      StreamBits start (tokens ++ others) (false :: (block ++ rest))

end Spicule.Deflate

import Spicule.Lib.Decimal
import Spicule.Lib.Numeral

namespace Spicule.Inet

abbrev Bytes := List UInt8

def octetDigits : Bytes → Nat → Nat → Option (Nat × Nat × Bytes)
  | [], v, digits => some (v, digits, [])
  | c :: p, v, digits =>
    if Decimal.isDigit c then
      if 255 < v * 10 + (c.toNat - 48) ∨ 3 < digits + 1 then none
      else octetDigits p (v * 10 + (c.toNat - 48)) (digits + 1)
    else some (v, digits, c :: p)

def octet (p : Bytes) : Option (Nat × Bytes) :=
  if p.head? = some 48 ∧ Decimal.isDigit (p.getD 1 0) = true then none
  else
    match octetDigits p 0 0 with
    | none => none
    | some (v, digits, p) => if digits = 0 then none else some (v, p)

def afterDot : Bytes → Option Bytes
  | 46 :: p => some p
  | _ => none

def octets : Nat → Bool → Bytes → Option (Bytes × Bytes)
  | 0, _, p => some ([], p)
  | more + 1, first, p =>
    (if first then some p else afterDot p).bind fun p => (octet p).bind fun (v, p) =>
      (octets more false p).map fun (vs, p) => (UInt8.ofNat v :: vs, p)

def pton4 (src : Bytes) : Option Bytes :=
  match octets 4 true src with
  | some (parts, []) => some parts
  | _ => none

def hexval (c : UInt8) : Option Nat :=
  if 48 ≤ c.toNat ∧ c.toNat ≤ 57 then some (c.toNat - 48)
  else if 97 ≤ c.toNat ∧ c.toNat ≤ 102 then some (c.toNat - 97 + 10)
  else if 65 ≤ c.toNat ∧ c.toNat ≤ 70 then some (c.toNat - 65 + 10)
  else none

structure Scan where
  out : Bytes
  compress : Option Nat
  token : Bytes
  value : Nat
  sawDigit : Bool
  digits : Nat
deriving DecidableEq

def word (value : Nat) : Bytes := [UInt8.ofNat (value / 256), UInt8.ofNat value]

def fresh (out : Bytes) (compress : Option Nat) (src : Bytes) : Scan := ⟨out, compress, src, 0, false, 0⟩

def scan : Bytes → Scan → Option Scan
  | [], st => some st
  | c :: src, st =>
    match hexval c with
    | some h =>
      if 0xffff < st.value * 16 + h ∨ 4 < st.digits + 1 then none
      else scan src { st with value := st.value * 16 + h, digits := st.digits + 1, sawDigit := true }
    | none =>
      if c = 58 then
        if st.sawDigit = false then
          if st.compress.isSome then none
          else scan src { st with token := src, compress := some st.out.length }
        else if 16 < st.out.length + 2 then none
        else if src = [] then none
        else scan src (fresh (st.out ++ word st.value) st.compress src)
      else if c = 46 ∧ st.sawDigit = true ∧ st.out.length + 4 ≤ 16 then
        (pton4 st.token).map fun quad => { st with out := st.out ++ quad, sawDigit := false }
      else none

def finish (st : Scan) : Option Bytes :=
  (if st.sawDigit then (if 16 < st.out.length + 2 then none else some (st.out ++ word st.value)) else some st.out).bind
    fun out =>
      match st.compress with
      | some cut =>
        if out.length = 16 then none
        else some (out.take cut ++ List.replicate (16 - out.length) 0 ++ out.drop cut)
      | none => if out.length = 16 then some out else none

def pton6 (src : Bytes) : Option Bytes :=
  match src with
  | 58 :: 58 :: rest => (scan (58 :: rest) (fresh [] none (58 :: rest))).bind finish
  | 58 :: _ => none
  | src => (scan src (fresh [] none src)).bind finish

inductive Family where
  | inet
  | inet6
deriving DecidableEq

def inetPton : Family → Bytes → Option Bytes
  | .inet, src => pton4 src
  | .inet6, src => pton6 src

-- The textual forms of RFC 4291, 2.2, and that inet_pton accepts exactly these.

open List UInt8 Decimal Numeral

def Quad (text quad : Bytes) : Prop :=
  ∃ a b c d : UInt8, quad = [a, b, c, d] ∧
    text = digits a.toNat ++ 46 :: (digits b.toNat ++ 46 :: (digits c.toNat ++ 46 :: digits d.toNat))

def Hextet (text bytes : Bytes) : Prop :=
  ∃ values, text.map hexval = values.map some ∧ 0 < text.length ∧ text.length ≤ 4 ∧ bytes = word (natOf 16 values)

inductive Hextets : Bytes → Bytes → Prop where
  | one (text bytes : Bytes) (hextet : Hextet text bytes) : Hextets text bytes
  | more (text bytes rest tail : Bytes) (hextet : Hextet text bytes) (hextets : Hextets rest tail) :
      Hextets (text ++ 58 :: rest) (bytes ++ tail)

inductive Groups : Bytes → Bytes → Prop where
  | hextets (text bytes : Bytes) (hextets : Hextets text bytes) : Groups text bytes
  | quad (text bytes : Bytes) (quad : Quad text bytes) : Groups text bytes
  | mixed (text bytes rest tail : Bytes) (hextets : Hextets text bytes) (quad : Quad rest tail) :
      Groups (text ++ 58 :: rest) (bytes ++ tail)

def OrNone (form : Bytes → Bytes → Prop) (text bytes : Bytes) : Prop := (text = [] ∧ bytes = []) ∨ form text bytes

inductive Address : Bytes → Bytes → Prop where
  | full (text bytes : Bytes) (groups : Groups text bytes) (whole : bytes.length = 16) : Address text bytes
  | compressed (left front right back : Bytes) (before : OrNone Hextets left front) (after : OrNone Groups right back)
      (short : front.length + back.length ≤ 14) :
      Address (left ++ 58 :: 58 :: right) (front ++ List.replicate (16 - (front.length + back.length)) 0 ++ back)

section

theorem octet_digits_run (run rest : Bytes) (v n : Nat) (all : ∀ c ∈ run, isDigit c = true) (stop : NoDigitAhead rest) :
    octetDigits (run ++ rest) v n =
      if valueFrom v run ≤ 255 ∧ n + run.length ≤ 3 ∨ run = [] then some (valueFrom v run, n + run.length, rest) else none := by
  induction run generalizing v n with
  | nil =>
    rw [if_pos (.inr rfl)]
    cases rest with
    | nil => rfl
    | cons c rest => rw [nil_append, octetDigits, stop c rest rfl, if_neg Bool.false_ne_true]; rfl
  | cons c run ih =>
    have digital := all c mem_cons_self
    have larger := value_from_ge (v * 10 + (c.toNat - 48)) run
    have unfolded : valueFrom v (c :: run) = valueFrom (v * 10 + (c.toNat - 48)) run := rfl
    rw [cons_append, octetDigits, if_pos digital, unfolded, length_cons]
    by_cases overs : 255 < v * 10 + (c.toNat - 48) ∨ 3 < n + 1
    · rw [if_pos overs, if_neg]
      rintro (fits | none_left)
      · omega
      · exact absurd none_left (cons_ne_nil _ _)
    · rw [if_neg overs, ih _ _ (forall_mem_cons.mp all).2]
      have shifted : n + 1 + run.length = n + (run.length + 1) := by omega
      rw [shifted]
      by_cases fits : valueFrom (v * 10 + (c.toNat - 48)) run ≤ 255 ∧ n + (run.length + 1) ≤ 3
      · rw [if_pos (.inl fits), if_pos (.inl fits)]
      · have longer : run ≠ [] := by
          rintro rfl
          exact fits ⟨by change v * 10 + (c.toNat - 48) ≤ 255; omega, by rw [length_nil]; omega⟩
        rw [if_neg (fun either => either.elim fits longer),
          if_neg (fun either => either.elim fits (cons_ne_nil _ _))]

variable (p : Bytes)
theorem digits_ahead : ∃ run rest, p = run ++ rest ∧ (∀ c ∈ run, isDigit c = true) ∧ NoDigitAhead rest := by
  refine ⟨p.takeWhile isDigit, p.dropWhile isDigit, takeWhile_append_dropWhile.symm,
    fun c mem => mem_takeWhile_imp mem, ?_⟩
  intro c rest shape
  have past := head?_dropWhile_not isDigit p
  rw [shape, head?_cons] at past
  simpa using past

theorem second_digit {c : UInt8} {run rest : Bytes} (all : ∀ d ∈ c :: run, isDigit d = true) (stop : NoDigitAhead rest) :
    isDigit ((c :: run ++ rest).getD 1 0) = true ↔ 1 < (c :: run).length := by
  cases run with
  | nil =>
    refine iff_of_false ?_ (Nat.lt_irrefl 1)
    cases rest with
    | nil => exact Bool.false_ne_true
    | cons d rest =>
      change ¬ isDigit d = true
      rw [stop d rest rfl]
      exact Bool.false_ne_true
  | cons d run =>
    refine iff_of_true (all d (mem_cons_of_mem _ mem_cons_self)) ?_
    rw [length_cons, length_cons]
    omega

theorem octet_run {c : UInt8} {run rest : Bytes} (all : ∀ d ∈ c :: run, isDigit d = true) (stop : NoDigitAhead rest) :
    octet (c :: run ++ rest) =
      if c = 48 ∧ 1 < (c :: run).length ∨ 255 < valueFrom 0 (c :: run) ∨ 3 < (c :: run).length then none
      else some (valueFrom 0 (c :: run), rest) := by
  have second := second_digit all stop
  have read := octet_digits_run (c :: run) rest 0 0 all stop
  have head : (c :: run ++ rest).head? = some 48 ↔ c = 48 := by
    rw [cons_append, head?_cons, Option.some.injEq]
  have some_digit : 0 + (c :: run).length ≠ 0 := by rw [length_cons]; omega
  rw [octet, read]
  simp only [second, head]
  by_cases zero : c = 48 ∧ 1 < (c :: run).length
  · rw [if_pos zero, if_pos (.inl zero)]
  · rw [if_neg zero]
    by_cases fits : valueFrom 0 (c :: run) ≤ 255 ∧ 0 + (c :: run).length ≤ 3
    · rw [if_pos (.inl fits), if_neg (fun any => any.elim zero (by omega))]
      simp only [if_neg some_digit]
    · rw [if_neg (fun either => either.elim fits (cons_ne_nil _ _)), if_pos (by omega)]

theorem octet_absent (stop : NoDigitAhead p) : octet p = none := by
  have read := octet_digits_run [] p 0 0 (fun c mem => nomatch mem) stop
  rw [nil_append, if_pos (.inr rfl)] at read
  rw [octet, read]
  split <;> rfl

theorem octet_iff (v : Nat) (rest : Bytes) :
    octet p = some (v, rest) ↔ p = digits v ++ rest ∧ v ≤ 255 ∧ NoDigitAhead rest := by
  constructor
  · intro parsed
    obtain ⟨run, tail, rfl, all, stop⟩ := digits_ahead p
    cases run with
    | nil =>
      rw [nil_append, octet_absent tail stop] at parsed
      cases parsed
    | cons c run =>
      rw [octet_run all stop] at parsed
      split at parsed
      · cases parsed
      · rename_i inside
        cases parsed
        have lead : 1 < (c :: run).length → (c :: run).head? ≠ some 48 := by
          intro longer zero
          rw [head?_cons, Option.some.injEq] at zero
          exact inside (.inl ⟨zero, longer⟩)
        exact ⟨by rw [digits_value_from _ (cons_ne_nil _ _) all lead], by omega, stop⟩
  · rintro ⟨rfl, small, stop⟩
    obtain ⟨c, run, shape, _⟩ := digits_cons v
    have all := digits_all v
    have value := value_from_digits v
    have lead := digits_lead v
    have short := digits_length 2 v (by omega)
    rw [shape] at all value lead short ⊢
    rw [octet_run all stop, value, if_neg]
    rintro (zero | large | long)
    · exact lead zero.2 (by rw [head?_cons, zero.1])
    · omega
    · omega

theorem after_dot_iff (rest : Bytes) : afterDot p = some rest ↔ p = 46 :: rest := by
  unfold afterDot
  split
  · rename_i tail
    simp
  · rename_i other
    refine iff_of_false (fun none_of => nomatch none_of) ?_
    rintro rfl
    exact other rest rfl

theorem dot_stops (rest : Bytes) : NoDigitAhead (46 :: rest) := by
  intro c tail shape
  cases shape
  decide

def dotted (parts : Bytes) : Bytes := parts.flatMap fun d => 46 :: digits d.toNat

theorem dotted_nil : dotted [] = [] := rfl

theorem dotted_cons (d : UInt8) (parts : Bytes) : dotted (d :: parts) = 46 :: (digits d.toNat ++ dotted parts) := rfl

theorem dotted_stops {parts rest : Bytes} (stop : parts = [] → NoDigitAhead rest) : NoDigitAhead (dotted parts ++ rest) := by
  cases parts with
  | nil => exact stop rfl
  | cons d parts => exact dot_stops _

theorem octet_byte {v : Nat} (small : v ≤ 255) : (ofNat v).toNat = v := toNat_ofNat_of_lt' (Nat.lt_succ_of_le small)

theorem octets_iff (more : Nat) (p parts rest : Bytes) : octets more false p = some (parts, rest) ↔
    parts.length = more ∧ p = dotted parts ++ rest ∧ (parts ≠ [] → NoDigitAhead rest) := by
  induction more generalizing p parts rest with
  | zero =>
    simp only [octets, Option.some.injEq, Prod.mk.injEq]
    constructor
    · rintro ⟨rfl, rfl⟩
      exact ⟨rfl, rfl, fun some_part => absurd rfl some_part⟩
    · rintro ⟨none_left, rfl, _⟩
      rw [length_eq_zero_iff] at none_left
      subst none_left
      exact ⟨rfl, rfl⟩
  | succ more ih =>
    simp only [octets, Bool.false_eq_true, if_false, Option.bind_eq_some_iff, Option.map_eq_some_iff, Prod.exists,
      after_dot_iff, octet_iff, ih, Prod.mk.injEq]
    constructor
    · rintro ⟨_, rfl, v, _, ⟨rfl, small, ahead⟩, parts, rest, ⟨rfl, rfl, stop⟩, rfl, rfl⟩
      refine ⟨rfl, ?_, fun _ => ?_⟩
      · rw [dotted_cons, octet_byte small, cons_append, append_assoc]
      · cases parts with
        | nil => exact ahead
        | cons d parts => exact stop (cons_ne_nil _ _)
    · rintro ⟨size, rfl, stop⟩
      cases parts with
      | nil => cases size
      | cons d parts =>
        have stop := stop (cons_ne_nil _ _)
        refine ⟨digits d.toNat ++ (dotted parts ++ rest), ?_, d.toNat, dotted parts ++ rest,
          ⟨rfl, Nat.le_of_lt_succ d.toNat_lt, dotted_stops (fun _ => stop)⟩, parts, rest,
          ⟨Nat.succ_inj.mp size, rfl, fun _ => stop⟩, ?_, rfl⟩
        · rw [dotted_cons, cons_append, append_assoc]
        · rw [UInt8.ofNat_toNat]

theorem pton4_iff (src quad : Bytes) : pton4 src = some quad ↔ Quad src quad := by
  have whole : pton4 src = some quad ↔ octets 4 true src = some (quad, []) := by
    unfold pton4
    split
    · rename_i parts read
      rw [read, Option.some.injEq, Option.some.injEq, Prod.mk.injEq, and_iff_left rfl]
    · rename_i other
      exact iff_of_false (by simp) (fun read => other quad read)
  have first : octets 4 true src = (octet src).bind fun head =>
      (octets 3 false head.2).map fun tail => (ofNat head.1 :: tail.1, tail.2) := rfl
  rw [whole, first]
  simp only [Option.bind_eq_some_iff, Option.map_eq_some_iff, Prod.exists, octet_iff, octets_iff, Prod.mk.injEq]
  constructor
  · rintro ⟨v, _, ⟨rfl, small, _⟩, parts, _, ⟨size, rfl, _⟩, rfl, rfl⟩
    obtain ⟨b, c, d, rfl⟩ := length_eq_three.mp size
    refine ⟨ofNat v, b, c, d, rfl, ?_⟩
    simp only [octet_byte small, dotted_cons, dotted_nil, append_nil]
  · rintro ⟨a, b, c, d, rfl, rfl⟩
    refine ⟨a.toNat, dotted [b, c, d], ⟨?_, Nat.le_of_lt_succ a.toNat_lt, dot_stops _⟩, [b, c, d], [],
      ⟨rfl, (append_nil _).symm, by simp [NoDigitAhead]⟩, ?_, rfl⟩
    · simp only [dotted_cons, dotted_nil, append_nil]
    · rw [UInt8.ofNat_toNat]

end

section

def group (src out : Bytes) (compress : Option Nat) : Option Scan := scan src (fresh out compress src)

def assemble (compress : Option Nat) (out : Bytes) : Option Bytes :=
  match compress with
  | some cut =>
    if out.length = 16 then none else some (out.take cut ++ List.replicate (16 - out.length) 0 ++ out.drop cut)
  | none => if out.length = 16 then some out else none

def NoHexAhead (rest : Bytes) : Prop := ∀ c ∈ rest.head?, hexval c = none

theorem hexval_lt (c : UInt8) (h : Nat) (read : hexval c = some h) : h < 16 := by
  unfold hexval at read
  split_ifs at read <;> cases read <;> omega

variable (st : Scan)
theorem scan_hex (c : UInt8) (h : Nat) (src : Bytes) (read : hexval c = some h)
    (small : st.value < 16 ^ st.digits) (room : st.digits + 1 ≤ 4) :
    scan (c :: src) st = scan src { st with value := st.value * 16 + h, digits := st.digits + 1, sawDigit := true } := by
  have bound := hexval_lt c h read
  have limit : 16 ^ (st.digits + 1) ≤ 16 ^ 4 := Nat.pow_le_pow_right (by omega) room
  have fits : ¬ (0xffff < st.value * 16 + h ∨ 4 < st.digits + 1) := by
    rw [Nat.pow_succ] at limit
    omega
  simp only [scan, read, if_neg fits]

theorem scan_hex_run (run rest : Bytes) (values : List Nat) (st : Scan) (read : run.map hexval = values.map some)
    (small : st.value < 16 ^ st.digits) (room : st.digits + run.length ≤ 4) (seen : st.sawDigit = true) :
    scan (run ++ rest) st = scan rest
      { st with value := values.foldl (fun n d => n * 16 + d) st.value, digits := st.digits + run.length } := by
  induction run generalizing values st with
  | nil =>
    obtain rfl := map_eq_nil_iff.mp read.symm
    rfl
  | cons c run ih =>
    cases values with
    | nil => cases read
    | cons h values =>
      rw [map_cons, map_cons, List.cons.injEq] at read
      rw [length_cons] at room
      have bound := hexval_lt c h read.1
      rw [cons_append, scan_hex st c h _ read.1 small (by omega), ih values _ read.2 _ (by simp only; omega) rfl]
      · simp only [foldl_cons, length_cons, seen]
        congr 2
        omega
      · simp only [Nat.pow_succ]
        omega

theorem scan_hex_long (run rest : Bytes) (values : List Nat) (st : Scan) (read : run.map hexval = values.map some)
    (overs : 4 < st.digits + run.length) (few : st.digits ≤ 4) : scan (run ++ rest) st = none := by
  induction run generalizing values st with
  | nil =>
    rw [length_nil] at overs
    omega
  | cons c run ih =>
    cases values with
    | nil => cases read
    | cons h values =>
      rw [map_cons, map_cons, List.cons.injEq] at read
      rw [length_cons] at overs
      simp only [cons_append, scan, read.1]
      split
      · rfl
      · exact ih values _ read.2 (by simp only; omega) (by simp only; omega)

variable (compress : Option Nat)
theorem group_run {run : Bytes} (rest out : Bytes) {values : List Nat}
    (read : run.map hexval = values.map some) (some_digit : 0 < run.length) (short : run.length ≤ 4) :
    group (run ++ rest) out compress = scan rest ⟨out, compress, run ++ rest, natOf 16 values, true, run.length⟩ := by
  match run, values, read with
  | c :: run, h :: values, read =>
    rw [map_cons, map_cons, List.cons.injEq] at read
    rw [length_cons] at short
    have bound := hexval_lt c h read.1
    rw [group, cons_append, scan_hex _ c h _ read.1 (by simp [fresh]) (by simp [fresh]),
      scan_hex_run run rest values _ read.2 (by simp only [fresh]; omega) (by simp only [fresh]; omega) rfl]
    simp only [fresh, natOf, foldl_cons, length_cons]
    congr 2
    omega

theorem scan_colon {src : Bytes} (seen : st.sawDigit = true) : scan (58 :: src) st =
    if 16 < st.out.length + 2 ∨ src = [] then none else group src (st.out ++ word st.value) st.compress := by
  have colon : hexval 58 = none := by decide
  simp only [scan, colon, if_true, seen, Bool.true_eq_false, if_false, group]
  by_cases full : 16 < st.out.length + 2
  · rw [if_pos full, if_pos (.inl full)]
  · by_cases last : src = []
    · rw [if_neg full, if_pos last, if_pos (.inr last)]
    · rw [if_neg full, if_neg last, if_neg (fun either => either.elim full last)]

variable (src out : Bytes)
theorem group_colon : group (58 :: src) out compress =
    if compress.isSome then none else group src out (some out.length) := by
  have colon : hexval 58 = none := by decide
  rfl

theorem scan_dot (seen : st.sawDigit = true) : scan (46 :: src) st =
    if st.out.length + 4 ≤ 16 then
      (pton4 st.token).map fun quad => { st with out := st.out ++ quad, sawDigit := false }
    else none := by
  have dot : hexval 46 = none := by decide
  have other : ¬ (46 : UInt8) = 58 := by decide
  simp only [scan, dot, if_neg other, seen, true_and]

theorem scan_other {c : UInt8} {src : Bytes} (unread : hexval c = none) (colon : c ≠ 58)
    (dot : c ≠ 46 ∨ st.sawDigit = false) : scan (c :: src) st = none := by
  simp only [scan, unread, if_neg colon]
  rw [if_neg]
  rintro ⟨same, seen, _⟩
  cases dot with
  | inl other => exact other same
  | inr unseen => exact absurd (seen.symm.trans unseen) (by decide)

theorem hex_ahead : ∃ (run rest : Bytes) (values : List Nat), src = run ++ rest ∧
    run.map hexval = values.map some ∧ NoHexAhead rest := by
  induction src with
  | nil => exact ⟨[], [], [], rfl, rfl, fun c head => nomatch head⟩
  | cons c src ih =>
    cases read : hexval c with
    | none =>
      refine ⟨[], c :: src, [], rfl, rfl, fun d head => ?_⟩
      cases head
      exact read
    | some h =>
      obtain ⟨run, rest, values, rfl, reads, stop⟩ := ih
      exact ⟨c :: run, rest, h :: values, rfl, by rw [map_cons, map_cons, read, reads], stop⟩

inductive Scanned : Bytes → Bytes → Option Nat → Scan → Prop where
  | done (out : Bytes) (compress : Option Nat) : Scanned [] out compress (fresh out compress [])
  | gap (src out : Bytes) (st : Scan) (ran : group src out (some out.length) = some st) : Scanned (58 :: src) out none st
  | colon (text bytes src out : Bytes) (compress : Option Nat) (st : Scan) (hextet : Hextet text bytes) (more : src ≠ [])
      (room : out.length + 2 ≤ 16) (ran : group src (out ++ bytes) compress = some st) :
      Scanned (text ++ 58 :: src) out compress st
  | last (src out : Bytes) (values : List Nat) (compress : Option Nat) (hextet : Hextet src (word (natOf 16 values))) :
      Scanned src out compress ⟨out, compress, src, natOf 16 values, true, src.length⟩
  | quad (src quad out : Bytes) (compress : Option Nat) (st : Scan) (quads : Quad src quad) (room : out.length + 4 ≤ 16)
      (stored : st.out = out ++ quad) (kept : st.compress = compress) (unseen : st.sawDigit = false) :
      Scanned src out compress st

variable {compress}
theorem group_scanned (ran : group src out compress = some st) : Scanned src out compress st := by
  obtain ⟨run, rest, values, rfl, read, stop⟩ := hex_ahead src
  by_cases empty : run = []
  · subst empty
    rw [nil_append] at ran ⊢
    cases rest with
    | nil =>
      cases ran
      exact .done out compress
    | cons c rest =>
      by_cases colon : c = 58
      · subst colon
        rw [group_colon] at ran
        cases compress with
        | none => exact .gap rest out st ran
        | some cut => cases ran
      · rw [group, scan_other _ (stop c rfl) colon (.inr rfl)] at ran
        cases ran
  · have some_digit : 0 < run.length := length_pos_iff.mpr empty
    by_cases short : run.length ≤ 4
    · rw [group_run compress rest out read some_digit short] at ran
      have hextet : Hextet run (word (natOf 16 values)) := ⟨values, read, some_digit, short, rfl⟩
      cases rest with
      | nil =>
        rw [append_nil] at ran ⊢
        cases ran
        exact .last run out values compress hextet
      | cons c rest =>
        by_cases colon : c = 58
        · subst colon
          rw [scan_colon _ rfl] at ran
          split at ran
          · cases ran
          · rename_i inside
            exact .colon run _ rest out compress st hextet (fun last => inside (.inr last))
              (Nat.not_lt.mp fun full => inside (.inl full)) ran
        · by_cases dot : c = 46
          · subst dot
            rw [scan_dot _ rest rfl] at ran
            split at ran
            · rename_i room
              obtain ⟨quad, quads, rfl⟩ := Option.map_eq_some_iff.mp ran
              exact .quad _ quad out compress _ ((pton4_iff _ quad).mp quads) room rfl rfl rfl
            · cases ran
          · rw [scan_other _ (stop c rfl) colon (.inl dot)] at ran
            cases ran
    · have few : (fresh out compress (run ++ rest)).digits ≤ 4 := by simp [fresh]
      rw [group, scan_hex_long run rest values _ read (by simp only [fresh]; omega) few] at ran
      cases ran

theorem finish_unseen (unseen : st.sawDigit = false) : finish st = assemble st.compress st.out := by
  simp only [finish, unseen, Bool.false_eq_true, if_false, Option.bind_some]
  rfl

theorem finish_seen (seen : st.sawDigit = true) : finish st =
    if 16 < st.out.length + 2 then none else assemble st.compress (st.out ++ word st.value) := by
  simp only [finish, seen, if_true]
  split <;> rfl

theorem word_length (value : Nat) : (word value).length = 2 := rfl

theorem groups_cons {text bytes src tail : Bytes} (hextet : Hextet text bytes) (groups : Groups src tail) :
    Groups (text ++ 58 :: src) (bytes ++ tail) := by
  cases groups with
  | hextets _ _ hextets => exact .hextets _ _ (.more text bytes src tail hextet hextets)
  | quad _ _ quad => exact .mixed text bytes src tail (.one text bytes hextet) quad
  | mixed front first rest last hextets quad =>
    have joined := Groups.mixed _ _ rest last (.more text bytes front first hextet hextets) quad
    rwa [append_assoc, append_assoc, cons_append] at joined

variable {text bytes : Bytes}
theorem hextet_first (hextet : Hextet text bytes) : ∃ c tail, text = c :: tail ∧ c ≠ 58 := by
  obtain ⟨values, read, some_digit, _⟩ := hextet
  match text, values, read with
  | c :: tail, h :: values, read =>
    rw [map_cons, map_cons, List.cons.injEq] at read
    refine ⟨c, tail, rfl, ?_⟩
    rintro rfl
    have colon : hexval 58 = none := by decide
    rw [colon] at read
    cases read.1

theorem hextets_first (hextets : Hextets text bytes) : ∃ c tail, text = c :: tail ∧ c ≠ 58 := by
  cases hextets with
  | one _ _ hextet => exact hextet_first hextet
  | more text bytes rest tail hextet hextets =>
    obtain ⟨c, more, rfl, other⟩ := hextet_first hextet
    exact ⟨c, more ++ 58 :: rest, rfl, other⟩

theorem quad_first {quad : Bytes} (quads : Quad text quad) : ∃ c tail, text = c :: tail ∧ c ≠ 58 := by
  obtain ⟨a, b, c, d, _, rfl⟩ := quads
  obtain ⟨first, rest, shape, digital⟩ := digits_cons a.toNat
  rw [shape]
  refine ⟨first, _, rfl, ?_⟩
  rintro rfl
  cases digital

theorem groups_first (groups : Groups text bytes) : ∃ c tail, text = c :: tail ∧ c ≠ 58 := by
  cases groups with
  | hextets _ _ hextets => exact hextets_first hextets
  | quad _ _ quad => exact quad_first quad
  | mixed text bytes rest tail hextets quad =>
    obtain ⟨c, more, rfl, other⟩ := hextets_first hextets
    exact ⟨c, more ++ 58 :: rest, rfl, other⟩

theorem hextets_even (hextets : Hextets text bytes) : bytes.length % 2 = 0 := by
  induction hextets with
  | one text bytes hextet =>
    obtain ⟨values, _, _, _, rfl⟩ := hextet
    rw [word_length]
  | more text bytes rest tail hextet hextets ih =>
    obtain ⟨values, _, _, _, rfl⟩ := hextet
    rw [length_append, word_length]
    omega

theorem groups_even (groups : Groups text bytes) : bytes.length % 2 = 0 := by
  cases groups with
  | hextets _ _ hextets => exact hextets_even hextets
  | quad _ _ quad =>
    obtain ⟨a, b, c, d, rfl, _⟩ := quad
    exact (by decide : 4 % 2 = 0)
  | mixed text bytes rest tail hextets quad =>
    have even := hextets_even hextets
    obtain ⟨a, b, c, d, rfl, _⟩ := quad
    rw [length_append, length_cons, length_cons, length_cons, length_singleton]
    omega

theorem compressed_sound {cut : Nat} {bytes : Bytes}
    (ran : group src out (some cut) = some st) (finished : finish st = some bytes) (room : out.length ≤ 16) :
    ∃ back, OrNone Groups src back ∧ out.length + back.length ≤ 16 ∧ assemble (some cut) (out ++ back) = some bytes := by
  induction size : src.length using Nat.strongRecOn generalizing src out with
  | ind n ih =>
    generalize compressed : some cut = compress at ran
    cases group_scanned st src out ran with
    | done =>
      rw [finish_unseen _ rfl] at finished
      exact ⟨[], .inl ⟨rfl, rfl⟩, room, by rw [append_nil]; exact finished⟩
    | gap src _ _ _ => cases compressed
    | colon text bytes src _ _ _ hextet more room ran =>
      subst compressed
      obtain ⟨values, _, some_digit, _, rfl⟩ := id hextet
      obtain ⟨back, shape, fits, assembled⟩ := ih src.length
        (by rw [← size, length_append, length_cons]; omega) src _ ran
        (by rw [length_append, word_length]; exact room) rfl
      have groups := shape.resolve_left (fun none_left => more none_left.1)
      rw [append_assoc] at assembled
      rw [length_append] at fits
      exact ⟨_, .inr (groups_cons hextet groups), by rw [length_append]; omega, assembled⟩
    | last _ _ values _ hextet =>
      rw [finish_seen _ rfl] at finished
      split at finished
      · cases finished
      · rename_i fits
        exact ⟨_, .inr (.hextets _ _ (.one src _ hextet)), by rw [word_length]; exact Nat.not_lt.mp fits, finished⟩
    | quad _ quad _ _ _ quads fits stored kept unseen =>
      rw [finish_unseen st unseen, stored, kept] at finished
      obtain ⟨a, b, c, d, rfl, _⟩ := id quads
      exact ⟨_, .inr (.quad _ _ quads), fits, finished⟩

-- Before any "::": all the groups, or some, the gap and the rest. With nothing before it the
-- scan stands at the second colon.
theorem plain_sound {bytes : Bytes} (ran : group src out none = some st)
    (finished : finish st = some bytes) (room : out.length ≤ 16) :
    (∃ back, OrNone Groups src back ∧ assemble none (out ++ back) = some bytes) ∨
      ∃ left front right back, OrNone Hextets left front ∧ OrNone Groups right back ∧
        58 :: src = (if left = [] then [] else 58 :: left) ++ 58 :: 58 :: right ∧
        out.length + front.length + back.length ≤ 16 ∧
        assemble (some (out.length + front.length)) (out ++ front ++ back) = some bytes := by
  induction size : src.length using Nat.strongRecOn generalizing src out with
  | ind n ih =>
    cases group_scanned st src out ran with
    | done =>
      rw [finish_unseen _ rfl] at finished
      exact .inl ⟨[], .inl ⟨rfl, rfl⟩, by rw [append_nil]; exact finished⟩
    | gap src _ _ ran =>
      obtain ⟨back, shape, fits, assembled⟩ := compressed_sound st src out ran finished room
      exact .inr ⟨[], [], src, back, .inl ⟨rfl, rfl⟩, shape, rfl, fits, by rw [append_nil]; exact assembled⟩
    | colon text bytes src _ _ _ hextet more room ran =>
      obtain ⟨values, _, some_digit, _, rfl⟩ := id hextet
      have spelled : text ≠ [] := length_pos_iff.mp some_digit
      have longer := ih src.length (by rw [← size, length_append, length_cons]; omega) src _ ran
        (by rw [length_append, word_length]; exact room) rfl
      rcases longer with ⟨back, shape, assembled⟩ | ⟨left, front, right, back, before, after, split, fits, assembled⟩
      · have groups := shape.resolve_left (fun none_left => more none_left.1)
        rw [append_assoc] at assembled
        exact .inl ⟨_, .inr (groups_cons hextet groups), assembled⟩
      · rw [length_append] at fits assembled
        have fits : out.length + (word (natOf 16 values) ++ front).length + back.length ≤ 16 := by
          rw [length_append]
          omega
        have assembled : assemble (some (out.length + (word (natOf 16 values) ++ front).length))
            (out ++ (word (natOf 16 values) ++ front) ++ back) = some bytes := by
          rwa [length_append, ← Nat.add_assoc, ← append_assoc]
        cases before with
        | inl nothing =>
          obtain ⟨rfl, rfl⟩ := nothing
          rw [append_nil] at fits assembled
          rw [if_pos rfl, nil_append, List.cons.injEq] at split
          refine .inr ⟨text, _, right, back, .inr (.one text _ hextet), after, ?_, fits, assembled⟩
          rw [if_neg spelled, split.2]
          rfl
        | inr hextets =>
          have shown : left ≠ [] := by
            obtain ⟨c, tail, rfl, _⟩ := hextets_first hextets
            exact cons_ne_nil c tail
          rw [if_neg shown, cons_append, List.cons.injEq] at split
          refine .inr ⟨text ++ 58 :: left, _, right, back, .inr (.more text _ left front hextet hextets), after, ?_,
            fits, assembled⟩
          rw [if_neg (by simp), split.2, cons_append, append_assoc, cons_append]
    | last _ _ values _ hextet =>
      rw [finish_seen _ rfl] at finished
      split at finished
      · cases finished
      · exact .inl ⟨_, .inr (.hextets _ _ (.one src _ hextet)), finished⟩
    | quad _ quad _ _ _ quads fits stored kept unseen =>
      rw [finish_unseen st unseen, stored, kept] at finished
      exact .inl ⟨_, .inr (.quad _ _ quads), finished⟩

theorem group_hextet (src out : Bytes) (hextet : Hextet text bytes) (more : src ≠ [])
    (room : out.length + 2 ≤ 16) : group (text ++ 58 :: src) out compress = group src (out ++ bytes) compress := by
  obtain ⟨values, read, some_digit, short, rfl⟩ := hextet
  rw [group_run compress (58 :: src) out read some_digit short, scan_colon _ rfl, if_neg]
  rintro (full | last)
  · exact absurd room (Nat.not_le.mpr full)
  · exact more last

theorem group_hextets (src out : Bytes) (hextets : Hextets text bytes) (more : src ≠ [])
    (room : out.length + bytes.length ≤ 16) : group (text ++ 58 :: src) out compress = group src (out ++ bytes) compress := by
  induction hextets generalizing out with
  | one text bytes hextet =>
    obtain ⟨values, _, _, _, rfl⟩ := id hextet
    exact group_hextet src out hextet more room
  | more text bytes rest tail hextet hextets ih =>
    obtain ⟨values, _, _, _, rfl⟩ := id hextet
    rw [length_append, word_length] at room
    rw [append_assoc, cons_append, group_hextet _ out hextet (by simp) (by omega),
      ih _ (by rw [length_append, word_length]; omega), append_assoc]

variable (compress) in
theorem group_last (out : Bytes) (hextet : Hextet text bytes)
    (room : out.length + 2 ≤ 16) : (group text out compress).bind finish = assemble compress (out ++ bytes) := by
  obtain ⟨values, read, some_digit, short, rfl⟩ := hextet
  have run := group_run compress [] out read some_digit short
  rw [append_nil] at run
  rw [run, scan, Option.bind_some, finish_seen _ rfl, if_neg (Nat.not_lt.mpr room)]

theorem digits_hex (n : Nat) : ∃ values : List Nat, (digits n).map hexval = values.map some := by
  have each : ∀ c ∈ digits n, hexval c = some (c.toNat - 48) := by
    intro c mem
    obtain ⟨low, high⟩ := (is_digit_iff c).mp (digits_all n c mem)
    rw [hexval, if_pos ⟨low, high⟩]
  refine ⟨(digits n).map fun c => c.toNat - 48, ?_⟩
  rw [map_map]
  exact map_congr_left each

theorem group_quad {quad out : Bytes} (quads : Quad text quad) (room : out.length + 4 ≤ 16) :
    (group text out compress).bind finish = assemble compress (out ++ quad) := by
  have parsed := (pton4_iff text quad).mpr quads
  obtain ⟨a, b, c, d, _, rfl⟩ := quads
  obtain ⟨values, read⟩ := digits_hex a.toNat
  obtain ⟨first, rest, shape, _⟩ := digits_cons a.toNat
  have some_digit : 0 < (digits a.toNat).length := by rw [shape, length_cons]; omega
  have short := digits_length 2 a.toNat (by have := a.toNat_lt; omega)
  rw [group_run compress _ out read some_digit (by omega), scan_dot _ _ rfl, if_pos room, parsed, Option.map_some,
    Option.bind_some, finish_unseen _ rfl]

theorem group_groups (out : Bytes) (groups : Groups text bytes)
    (room : out.length + bytes.length ≤ 16) : (group text out compress).bind finish = assemble compress (out ++ bytes) := by
  cases groups with
  | hextets _ _ hextets =>
    induction hextets generalizing out with
    | one text bytes hextet =>
      obtain ⟨values, _, _, _, rfl⟩ := id hextet
      exact group_last compress out hextet room
    | more text bytes rest tail hextet hextets ih =>
      obtain ⟨values, _, _, _, rfl⟩ := id hextet
      obtain ⟨c, more, rfl, _⟩ := hextets_first hextets
      rw [length_append, word_length] at room
      rw [group_hextet _ out hextet (cons_ne_nil _ _) (by omega),
        ih _ (by rw [length_append, word_length]; omega), append_assoc]
  | quad _ _ quad =>
    obtain ⟨a, b, c, d, rfl, _⟩ := id quad
    exact group_quad quad room
  | mixed text bytes rest tail hextets quad =>
    obtain ⟨c, more, rfl, _⟩ := quad_first quad
    rw [length_append] at room
    rw [group_hextets _ out hextets (cons_ne_nil _ _) (by omega)]
    obtain ⟨a, b, c, d, rfl, _⟩ := id quad
    have fits : (out ++ bytes).length + 4 ≤ 16 := by
      rw [length_append]
      change out.length + (bytes.length + 4) ≤ 16 at room
      omega
    rw [group_quad quad fits, append_assoc]

theorem pton6_plain (plain : src.head? ≠ some 58) : pton6 src = (group src [] none).bind finish := by
  unfold pton6
  split
  · exact absurd rfl plain
  · exact absurd rfl plain
  · rfl

theorem pton6_gap (rest : Bytes) : pton6 (58 :: 58 :: rest) = (group rest [] (some 0)).bind finish := by
  have step := group_colon none rest []
  rw [if_neg (by decide)] at step
  exact congrArg (·.bind finish) step

theorem pton6_lone {tail : Bytes} (single : tail.head? ≠ some 58) : pton6 (58 :: tail) = none := by
  unfold pton6
  split
  · rename_i shape
    cases shape
    exact absurd rfl single
  · rfl
  · rename_i other
    exact absurd rfl (other tail)

theorem assemble_gap {front back : Bytes} (short : front.length + back.length ≤ 14) :
    assemble (some front.length) (front ++ back) =
      some (front ++ List.replicate (16 - (front.length + back.length)) 0 ++ back) := by
  rw [assemble, length_append, if_neg (by omega), take_left, drop_left]

variable (bytes) in
theorem pton6_complete (address : Address src bytes) : pton6 src = some bytes := by
  cases address with
  | full _ _ groups whole =>
    obtain ⟨c, tail, rfl, other⟩ := groups_first groups
    rw [pton6_plain _ (by rwa [head?_cons, ne_eq, Option.some.injEq]),
      group_groups [] groups (by rw [whole]; decide), nil_append, assemble, if_pos whole]
  | compressed left front right back before after short =>
    have rest : ∀ out, out.length = front.length → (group right out (some front.length)).bind finish =
        assemble (some front.length) (out ++ back) := by
      intro out size
      cases after with
      | inl nothing =>
        obtain ⟨rfl, rfl⟩ := nothing
        rw [append_nil]
        exact finish_unseen (fresh out (some front.length) []) rfl
      | inr groups => exact group_groups out groups (by omega)
    cases before with
    | inl nothing =>
      obtain ⟨rfl, rfl⟩ := nothing
      rw [nil_append, pton6_gap]
      exact (rest [] rfl).trans (assemble_gap short)
    | inr hextets =>
      obtain ⟨c, tail, shape, other⟩ := hextets_first hextets
      have plain : (left ++ 58 :: 58 :: right).head? ≠ some 58 := by
        rwa [shape, cons_append, head?_cons, ne_eq, Option.some.injEq]
      rw [pton6_plain _ plain, group_hextets _ [] hextets (cons_ne_nil _ _)
        (by rw [length_nil]; omega), nil_append, group_colon, if_neg (by decide), rest front rfl,
        assemble_gap short]

theorem gap_address {left front right back : Bytes} {bytes : Bytes} (before : OrNone Hextets left front)
    (after : OrNone Groups right back) (fits : front.length + back.length ≤ 16)
    (assembled : assemble (some front.length) (front ++ back) = some bytes) : Address (left ++ 58 :: 58 :: right) bytes := by
  have even : front.length % 2 = 0 ∧ back.length % 2 = 0 := by
    constructor
    · rcases before with ⟨_, rfl⟩ | hextets
      · rfl
      · exact hextets_even hextets
    · rcases after with ⟨_, rfl⟩ | groups
      · rfl
      · exact groups_even groups
  have short : front.length + back.length ≤ 14 := by
    rw [assemble, length_append] at assembled
    split at assembled
    · cases assembled
    · omega
  rw [assemble_gap short, Option.some.injEq] at assembled
  rw [← assembled]
  exact .compressed left front right back before after short

variable (bytes) in
theorem pton6_sound (parsed : pton6 src = some bytes) : Address src bytes := by
  by_cases colon : src.head? = some 58
  · obtain ⟨tail, rfl⟩ := head?_eq_some_iff.mp colon
    by_cases second : tail.head? = some 58
    · obtain ⟨rest, rfl⟩ := head?_eq_some_iff.mp second
      rw [pton6_gap] at parsed
      obtain ⟨st, ran, finished⟩ := Option.bind_eq_some_iff.mp parsed
      obtain ⟨back, shape, fits, assembled⟩ := compressed_sound st rest [] ran finished (Nat.zero_le _)
      exact gap_address (.inl ⟨rfl, rfl⟩) shape fits assembled
    · rw [pton6_lone second] at parsed
      cases parsed
  · rw [pton6_plain src colon] at parsed
    obtain ⟨st, ran, finished⟩ := Option.bind_eq_some_iff.mp parsed
    rcases plain_sound st src [] ran finished (Nat.zero_le _) with
      ⟨back, shape, assembled⟩ | ⟨left, front, right, back, before, after, split, fits, assembled⟩
    · rw [nil_append, assemble] at assembled
      split at assembled
      · rename_i whole
        cases assembled
        rcases shape with ⟨_, rfl⟩ | groups
        · cases whole
        · exact .full src _ groups whole
      · cases assembled
    · rw [length_nil, Nat.zero_add] at fits assembled
      by_cases shown : left = []
      · rw [if_pos shown, nil_append, List.cons.injEq] at split
        rw [split.2] at colon
        exact absurd rfl colon
      · rw [if_neg shown, cons_append, List.cons.injEq] at split
        rw [split.2]
        exact gap_address before after fits assembled

variable (bytes) in
theorem pton6_iff : pton6 src = some bytes ↔ Address src bytes := ⟨pton6_sound src bytes, pton6_complete src bytes⟩

end

end Spicule.Inet

import Spicule.Printf.Format

namespace Spicule.Printf
open List Option Numeral Rounding Nat

inductive Style where
  | f
  | e
  | g
  | a
deriving DecidableEq

structure Flags where
  plus : Bool
  space : Bool
  left : Bool
  zero : Bool
deriving DecidableEq

def precMax : Nat := 1080

def signbit (v : UInt64) : Bool := v >>> 63 ≠ 0

def fabs (v : UInt64) : UInt64 := v &&& 0x7fffffffffffffff

def isnan (v : UInt64) : Bool := (v >>> 52 &&& 0x7ff) = 0x7ff && (v &&& 0xfffffffffffff) ≠ 0

def isinf (v : UInt64) : Bool := (v >>> 52 &&& 0x7ff) = 0x7ff && (v &&& 0xfffffffffffff) = 0

structure Body where
  text : Bytes
  zeros : Nat
  zpos : Nat
  special : Bool

def gBody (v : UInt64) (prec : Int) (alt upper : Bool) : Option Body := do
  let P := if prec < 0 then 6 else if prec = 0 then 1 else prec.toNat
  let PU := min P precMax
  let D ← decExact v
  let D ← decRound D PU
  let zeros := if alt then P - PU else 0
  if D.decexp < -4 ∨ P ≤ D.decexp then do
    let (body, epos) ← fmtE D (PU - 1) alt upper
    some { text := if alt then body else stripG body true, zeros, zpos := epos, special := false }
  else do
    let body ← fmtF D (PU - 1 - D.decexp).toNat alt
    some { text := if alt then body else stripG body false, zeros, zpos := body.length, special := false }

def floatBody (v : UInt64) (style : Style) (upper : Bool) (prec : Int) (alt : Bool) : Option Body :=
  if isnan v then some { text := if upper then [78, 65, 78] else [110, 97, 110], zeros := 0, zpos := 0, special := true }
  else if isinf v then some { text := if upper then [73, 78, 70] else [105, 110, 102], zeros := 0, zpos := 0, special := true }
  else
    match style with
    | .a => do
        let (body, epos) ← fmtA v (min prec precMax) alt upper
        some { text := body, zeros := prec.toNat - precMax, zpos := epos, special := false }
    | .f => do
        let p := if prec < 0 then 6 else prec.toNat
        let D ← decExact v
        let body ← fmtF D (min p precMax) alt
        some { text := body, zeros := p - precMax, zpos := body.length, special := false }
    | .e => do
        let p := if prec < 0 then 6 else prec.toNat
        let D ← decExact v
        let (body, epos) ← fmtE D (min p precMax) alt upper
        some { text := body, zeros := p - precMax, zpos := epos, special := false }
    | .g => gBody v prec alt upper

def outBody (sk : Sink) (body : Bytes) (zpos zeros : Nat) : Sink :=
  ((sk.out (body.take zpos)).pad 48 zeros).out (body.drop zpos)

def signText (flags : Flags) (v : UInt64) : Bytes :=
  if signbit v then [45] else if flags.plus then [43] else if flags.space then [32] else []

def Body.settled (body : Body) : Body :=
  if body.zeros = 0 ∨ body.text.length < body.zpos then { body with zeros := 0, zpos := body.text.length } else body

def emitFloat (sk : Sink) (v : UInt64) (style : Style) (upper : Bool) (prec : Int) (alt : Bool) (flags : Flags) (width : Nat) :
    Option Sink := do
  let body ← floatBody (fabs v) style upper prec alt
  let body := body.settled
  let n := body.text.length
  let pfx := signText flags v ++ if style = .a ∧ body.special = false then [48, if upper then 88 else 120] else []
  if (intMax : Int) - n - pfx.length < body.zeros then some sk.overflowed
  else
    let padN := width - (n + body.zeros + pfx.length)
    if flags.left then some ((outBody (sk.out pfx) body.text body.zpos body.zeros).pad 32 padN)
    else if flags.zero ∧ body.special = false then some (outBody ((sk.out pfx).pad 48 padN) body.text body.zpos body.zeros)
    else some (outBody ((sk.pad 32 padN).out pfx) body.text body.zpos body.zeros)

def FloatText (style : Style) (upper alt : Bool) (prec : Nat) (y : ℚ) (text : Bytes) : Prop :=
  match style with
  | .f => ∃ n, HalfEven (y * 10 ^ (prec : Int)) n ∧ text = fixedText prec alt n
  | .e => ∃ n x, Scientific prec y n x ∧ text = scientificText prec alt upper n x
  | _ => False

def asked (prec : Int) : Nat := if prec < 0 then 6 else prec.toNat

def layout (flags : Flags) (width : Nat) (sign text : Bytes) : Bytes :=
  let padN := width - (text.length + sign.length)
  if flags.left then sign ++ (text ++ List.replicate padN 32)
  else if flags.zero then sign ++ (List.replicate padN 48 ++ text)
  else List.replicate padN 32 ++ (sign ++ text)

variable (v : UInt64)
theorem fabs_fields : field (fabs v) = field v ∧ frac (fabs v) = frac v := by
  have bits : (fabs v).toNat = v.toNat % 2 ^ 63 := by
    unfold fabs
    rw [UInt64.toNat_and]
    change v.toNat &&& (2 ^ 63 - 1) = _
    exact and_two_pow_sub_one_eq_mod _ _
  unfold field frac
  rw [bits]
  omega

theorem fabs_finite (finite : Finite v) : Finite (fabs v) := by
  unfold Finite at finite ⊢
  rw [(fabs_fields v).1]
  exact finite

theorem fabs_magnitude : magnitude (fabs v) = magnitude v := by
  unfold magnitude
  rw [(fabs_fields v).1, (fabs_fields v).2]

theorem finite_plain (finite : Finite v) : isnan v = false ∧ isinf v = false := by
  have apart : v >>> 52 &&& 0x7ff ≠ 0x7ff := by
    intro full
    apply finite
    rw [← exponent_field, full]
    rfl
  unfold isnan isinf
  simp [apart]

theorem magnitude_nonneg : 0 ≤ magnitude v := by
  unfold magnitude
  split <;> exact value_nonneg _ _

def Body.whole (body : Body) : Bytes :=
  body.text.take body.zpos ++ (List.replicate body.zeros 48 ++ body.text.drop body.zpos)

variable (p : Nat)
theorem clamped : (min p precMax = p ∧ p - precMax = 0) ∨ (min p precMax = 1080 ∧ p = 1080 + (p - precMax)) := by
  unfold precMax
  omega

theorem fixed_clamped {n : Nat} {alt : Bool} :
    fixedText (min p precMax) alt n ++ List.replicate (p - precMax) 48 = fixedText p alt (n * 10 ^ (p - precMax)) := by
  rcases clamped p with ⟨same, none⟩ | ⟨cut, rest⟩
  · rw [same, none, replicate_zero, append_nil, pow_zero, mul_one]
  · have longer := fixed_text_zeros alt 1080 (p - precMax) n (by norm_num)
    rw [← rest] at longer
    rw [cut, longer]

theorem mantissa_clamped (p n : Nat) (alt : Bool) :
    mantissaText (min p precMax) alt n ++ List.replicate (p - precMax) 48 = mantissaText p alt (n * 10 ^ (p - precMax)) := by
  rcases clamped p with ⟨same, none⟩ | ⟨cut, rest⟩
  · rw [same, none, replicate_zero, append_nil, pow_zero, mul_one]
  · have longer := mantissa_text_zeros alt 1080 (p - precMax) n (by norm_num)
    rw [← rest] at longer
    rw [cut, longer]

theorem fixed_body (finite : Finite v) (alt : Bool) :
    ∃ D text, decExact v = some D ∧ fmtF D (min p precMax) alt = some text ∧
      ∃ n, HalfEven (magnitude v * 10 ^ (p : Int)) n ∧ text ++ List.replicate (p - precMax) 48 = fixedText p alt n := by
  have narrow : min p precMax ≤ 1080 := by unfold precMax; omega
  rcases (magnitude_nonneg v).eq_or_lt with zero | pos
  · refine ⟨_, _, dec_exact_zero v finite zero.symm, fmt_f_zero _ alt narrow, _, ?_, fixed_clamped p⟩
    rw [← zero, zero_mul, zero_mul]
    exact_mod_cast half_even_nat 0
  · obtain ⟨D, ran, proper, value, _, last, _, high⟩ := dec_exact_spec v finite pos
    obtain ⟨n, printed, rounded⟩ := fmt_f_spec D alt (min p precMax) proper high narrow
    refine ⟨D, _, ran, printed, _, ?_, fixed_clamped p⟩
    rw [← value]
    rcases clamped p with ⟨same, none⟩ | ⟨cut, rest⟩
    · rw [none, pow_zero, mul_one]
      rw [same] at rounded
      exact rounded
    · rw [cut] at rounded
      have longer := half_even_zeros 1080 (p - precMax) n rounded (D.value_whole _ (by push_cast; omega))
      rw [← rest] at longer
      exact longer

theorem scientific_body (finite : Finite v) (alt upper : Bool) :
    ∃ D mantissa exponent, decExact v = some D ∧
      fmtE D (min p precMax) alt upper = some (mantissa ++ exponent, mantissa.length) ∧
      ∃ n x, Scientific p (magnitude v) n x ∧
        mantissa ++ (List.replicate (p - precMax) 48 ++ exponent) = scientificText p alt upper n x := by
  have narrow : min p precMax ≤ 1080 := by unfold precMax; omega
  rcases (magnitude_nonneg v).eq_or_lt with zero | pos
  · refine ⟨_, _, _, dec_exact_zero v finite zero.symm, fmt_e_zero _ narrow, 0, 0, Or.inl ⟨zero.symm, rfl, rfl⟩, ?_⟩
    rw [← append_assoc, mantissa_clamped, zero_mul]
    rfl
  · obtain ⟨D, ran, proper, value, few, _, low, high⟩ := dec_exact_spec v finite pos
    obtain ⟨n, x, printed, rounded⟩ := fmt_e_spec D alt (min p precMax) upper proper low high narrow
    refine ⟨D, _, _, ran, printed, n * 10 ^ (p - precMax), x, ?_, ?_⟩
    · rw [← value]
      rcases clamped p with ⟨same, none⟩ | ⟨cut, rest⟩
      · rw [none, pow_zero, mul_one]
        rw [same] at rounded
        exact rounded
      · rw [cut] at rounded
        have longer := scientific_zeros 1080 (p - precMax) n rounded (fun x₀ reach => by
          have order := (zpow_lt_zpow_iff_right₀ (by norm_num : (1 : ℚ) < 10)).mp (reach.trans_lt proper.bounds.2)
          unfold exactDig at few
          exact D.value_whole _ (by push_cast; omega))
        rw [← rest] at longer
        exact longer
    · rw [← append_assoc, mantissa_clamped]
      rfl

theorem float_body_text (finite : Finite v) {style : Style} (decimal : style = .f ∨ style = .e) (upper alt : Bool)
    (prec : Int) :
    ∃ body, floatBody v style upper prec alt = some body ∧ body.special = false ∧ body.zpos ≤ body.text.length ∧
      FloatText style upper alt (asked prec) (magnitude v) body.whole := by
  obtain ⟨number, infinite⟩ := finite_plain v finite
  unfold floatBody
  simp only [number, infinite, Bool.false_eq_true, if_false]
  rcases decimal with rfl | rfl
  · obtain ⟨D, text, ran, printed, n, rounded, shown⟩ := fixed_body v (asked prec) finite alt
    unfold asked at printed
    refine ⟨{ text, zeros := asked prec - precMax, zpos := text.length, special := false }, ?_, rfl, le_refl _, n, rounded, ?_⟩
    · simp only [ran, bind_eq_bind, bind_some, printed, asked]
    · unfold Body.whole
      simp only [take_length, drop_length, append_nil]
      exact shown
  · obtain ⟨D, mantissa, exponent, ran, printed, n, x, rounded, shown⟩ := scientific_body v (asked prec) finite alt upper
    unfold asked at printed
    refine ⟨{ text := mantissa ++ exponent, zeros := asked prec - precMax, zpos := mantissa.length, special := false }, ?_, rfl,
      ?_, n, x, rounded, ?_⟩
    · simp only [ran, bind_eq_bind, bind_some, printed, asked]
    · simp only [length_append]
      omega
    · unfold Body.whole
      simp only [take_left, drop_left]
      exact shown

variable (sk : Sink) (body : Body)
theorem out_body_emits : sk.Emits body.whole (outBody sk body.text body.zpos body.zeros) :=
  sk.emits_trans _ _ _ _ (sk.out_emits _) (Sink.emits_trans _ _ _ _ _ (Sink.pad_emits _ 48 _) (Sink.out_emits _ _))

variable (flags : Flags) (width : Nat)
theorem layout_length (sign text : Bytes) :
    text.length + sign.length ≤ (layout flags width sign text).length := by
  unfold layout
  simp only
  split
  · simp only [length_append]
    omega
  · split
    · simp only [length_append]
      omega
    · simp only [length_append]
      omega

theorem overflowed_emits (s : Bytes) (long : intMax < s.length) : sk.Emits s sk.overflowed := by
  refine ⟨fun _ => ⟨rfl, fun _ => rfl⟩, ?_, fun _ _ => ⟨rfl, rfl⟩⟩
  intro ready fits
  omega

theorem field_emits (sign : Bytes) : sk.Emits (layout flags width sign body.whole)
      (if flags.left then (outBody (sk.out sign) body.text body.zpos body.zeros).pad 32 (width - (body.whole.length + sign.length))
      else if flags.zero then
        outBody ((sk.out sign).pad 48 (width - (body.whole.length + sign.length))) body.text body.zpos body.zeros
      else outBody ((sk.pad 32 (width - (body.whole.length + sign.length))).out sign) body.text body.zpos body.zeros) := by
  unfold layout
  simp only
  split
  · exact sk.emits_trans _ _ _ _ (sk.out_emits sign)
      (Sink.emits_trans _ _ _ _ _ (out_body_emits _ body) (Sink.pad_emits _ 32 _))
  · split
    · exact sk.emits_trans _ _ _ _ (sk.out_emits sign)
        (Sink.emits_trans _ _ _ _ _ (Sink.pad_emits _ 48 _) (out_body_emits _ body))
    · exact sk.emits_trans _ _ _ _ (sk.pad_emits 32 _)
        (Sink.emits_trans _ _ _ _ _ (Sink.out_emits _ sign) (out_body_emits _ body))

theorem settled_whole (inside : body.zpos ≤ body.text.length) : body.settled.whole = body.whole := by
  unfold Body.settled
  split
  · rename_i plain
    have none : body.zeros = 0 := plain.resolve_right (by omega)
    unfold Body.whole
    simp only [none, replicate_zero, nil_append, take_append_drop]
  · rfl

theorem settled_special : body.settled.special = body.special := by
  unfold Body.settled
  split <;> rfl

theorem whole_length : body.whole.length = body.text.length + body.zeros := by
  unfold Body.whole
  simp only [length_append, length_take, length_replicate, length_drop]
  omega

theorem emit_float_body {v : UInt64} {style : Style} {upper : Bool} {prec : Int} {alt : Bool}
    {body : Body} (ran : floatBody (fabs v) style upper prec alt = some body) (ordinary : body.special = false)
    (inside : body.zpos ≤ body.text.length) (decimal : style = .f ∨ style = .e) :
    ∃ sk', emitFloat sk v style upper prec alt flags width = some sk' ∧
      sk.Emits (layout flags width (signText flags v) body.whole) sk' := by
  rw [← settled_whole body inside]
  rw [← settled_special] at ordinary
  have length := whole_length body.settled
  have hexadecimal : style ≠ .a := by
    rintro rfl
    rcases decimal with other | other <;> cases other
  unfold emitFloat
  simp only [ran, bind_eq_bind, bind_some, ordinary, hexadecimal, false_and, if_false, append_nil, and_true]
  by_cases long : (intMax : Int) - body.settled.text.length - (signText flags v).length < body.settled.zeros
  · refine ⟨_, if_pos long, overflowed_emits sk _ ?_⟩
    have least := layout_length flags width (signText flags v) body.settled.whole
    omega
  · have emitted := field_emits sk body.settled flags width (signText flags v)
    rw [length] at emitted
    refine ⟨_, ?_, emitted⟩
    rw [if_neg long]
    split
    · rfl
    · split <;> rfl

-- A finite double is printed as the exact number rounded half to even at the last place.
theorem emit_float_exact (sk : Sink) (v : UInt64) (finite : Finite v) (style : Style) (decimal : style = .f ∨ style = .e)
    (upper : Bool) (prec : Int) (alt : Bool) (flags : Flags) (width : Nat) :
    ∃ text sk', FloatText style upper alt (asked prec) (magnitude v) text ∧
      emitFloat sk v style upper prec alt flags width = some sk' ∧
      sk.Emits (layout flags width (signText flags v) text) sk' := by
  obtain ⟨body, ran, ordinary, inside, text⟩ := float_body_text (fabs v) (fabs_finite v finite) decimal upper alt prec
  rw [fabs_magnitude] at text
  obtain ⟨sk', emitted, gives⟩ := emit_float_body sk flags width ran ordinary inside decimal
  exact ⟨body.whole, sk', text, emitted, gives⟩

-- "%.1f" of a half, into an empty buffer of eight bytes.
theorem emit_float_half :
    ∃ text sk', FloatText .f false false 1 (magnitude 0x3fe0000000000000) text ∧
      emitFloat ⟨[], some 8, true, 0, false, false, false⟩ 0x3fe0000000000000 .f false 1 false ⟨false, false, false, false⟩ 0 =
        some sk' ∧
      Sink.Emits ⟨[], some 8, true, 0, false, false, false⟩
        (layout ⟨false, false, false, false⟩ 0 (signText ⟨false, false, false, false⟩ 0x3fe0000000000000) text) sk' :=
  emit_float_exact ⟨[], some 8, true, 0, false, false, false⟩ 0x3fe0000000000000 (by unfold Finite; decide) .f (Or.inl rfl) false 1
    false ⟨false, false, false, false⟩ 0

end Spicule.Printf

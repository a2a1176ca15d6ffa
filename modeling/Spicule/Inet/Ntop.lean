import Spicule.Inet.Forms

namespace Spicule.Inet
open List Decimal Numeral

structure InAddr where
  bytes : Bytes
  size : bytes.length = 4

structure In6Addr where
  bytes : Bytes
  size : bytes.length = 16

def inetAddrstrlen : Nat := 16

def inet6Addrstrlen : Nat := 46

def hexChar (d : Nat) : UInt8 := UInt8.ofNat (if d < 10 then 48 + d else 87 + d)

def hexText (w : Nat) : Bytes := (numeral 16 1 w).map hexChar

def quadText (b : Bytes) : Bytes :=
  digits (b.getD 0 0).toNat ++ 46 :: (digits (b.getD 1 0).toNat ++ 46 :: (digits (b.getD 2 0).toNat ++
    46 :: digits (b.getD 3 0).toNat))

def words (b : Bytes) : List Nat := (List.range 8).map fun i => (b.getD (2 * i) 0).toNat * 256 + (b.getD (2 * i + 1) 0).toNat

def zerosEnd (words : List Nat) : Nat → Nat → Nat
  | 0, j => j
  | fuel + 1, j => if j < 8 ∧ words.getD j 0 = 0 then zerosEnd words fuel (j + 1) else j

def bestRun (words : List Nat) : Nat → Nat → Nat × Nat → Nat × Nat
  | 0, _, best => best
  | steps + 1, i, best =>
    if i < 8 then
      if words.getD i 0 ≠ 0 then bestRun words steps (i + 1) best
      else
        let j := zerosEnd words 8 i
        bestRun words steps j (if best.2 < j - i then (i, j - i) else best)
    else best

def printWords (words : List Nat) (best : Option (Nat × Nat)) : Nat → Nat → Nat → Bytes → Option Bytes
  | 0, _, _, out => some out
  | steps + 1, i, left, out =>
    if i < 8 then
      if best.map Prod.fst = some i then
        if left < 3 then none else printWords words best steps (i + (best.getD (0, 0)).2) (left - 2) (out ++ [58, 58])
      else
        let separated := i ≠ 0 ∧ best.map (fun run => run.1 + run.2) ≠ some i
        if separated ∧ left < 2 then none
        else
          let out := if separated then out ++ [58] else out
          let left := if separated then left - 1 else left
          let text := hexText (words.getD i 0)
          if left ≤ text.length then none else printWords words best steps (i + 1) (left - text.length) (out ++ text)
    else some out

def mappedStart : Bytes := List.replicate 10 0 ++ [255, 255]

def mappedLead : Bytes := [58, 58, 102, 102, 102, 102, 58]

def ntop6Text (b : Bytes) : Option Bytes :=
  if b.take 12 = mappedStart then some (mappedLead ++ quadText (b.drop 12))
  else
    let ws := words b
    let run := bestRun ws 8 0 (0, 0)
    printWords ws (if run.2 < 2 then none else some run) 8 0 inet6Addrstrlen []

-- none is ENOSPC; the NUL needs room too.
def deliver (text : Option Bytes) (size : Nat) : Option Bytes :=
  text.bind fun text => if inet6Addrstrlen < text.length + 1 ∨ size < text.length + 1 then none else some text

def inetNtop4 (src : InAddr) (size : Nat) : Option Bytes := deliver (some (quadText src.bytes)) size

def inetNtop6 (src : In6Addr) (size : Nat) : Option Bytes := deliver (ntop6Text src.bytes) size

section
variable (ws : List Nat)
def ZeroRun (run : Nat × Nat) : Prop := run.1 + run.2 ≤ 8 ∧ ∀ k, run.1 ≤ k → k < run.1 + run.2 → ws.getD k 0 = 0

theorem zeros_end_spec (fuel j : Nat) (inside : j ≤ 8) : j ≤ zerosEnd ws fuel j ∧ zerosEnd ws fuel j ≤ 8 ∧
    ∀ k, j ≤ k → k < zerosEnd ws fuel j → ws.getD k 0 = 0 := by
  induction fuel generalizing j with
  | zero => exact ⟨Nat.le_refl j, inside, fun k low high => absurd high (Nat.not_lt.mpr low)⟩
  | succ fuel ih =>
    unfold zerosEnd
    split
    · rename_i zero
      obtain ⟨low, high, zeros⟩ := ih (j + 1) zero.1
      refine ⟨by omega, high, fun k from_ below => ?_⟩
      by_cases here : k = j
      · rw [here]
        exact zero.2
      · exact zeros k (by omega) below
    · exact ⟨Nat.le_refl j, inside, fun k low high => absurd high (Nat.not_lt.mpr low)⟩

theorem best_run_zeros (steps i : Nat) (best : Nat × Nat) (zeros : ZeroRun ws best) (inside : i ≤ 8) :
    ZeroRun ws (bestRun ws steps i best) := by
  induction steps generalizing i best with
  | zero => exact zeros
  | succ steps ih =>
    unfold bestRun
    split
    · rename_i below
      split
      · exact ih (i + 1) best zeros below
      · obtain ⟨low, high, run⟩ := zeros_end_spec ws 8 i inside
        refine ih _ _ ?_ high
        split
        · refine ⟨by dsimp only; omega, fun k from_ under => run k from_ ?_⟩
          dsimp only at under
          omega
        · exact zeros
    · exact zeros

end

section

def colonText (ws : List Nat) : Bytes := ws.flatMap fun w => 58 :: hexText w

def joined : List Nat → Bytes
  | [] => []
  | w :: ws => hexText w ++ colonText ws

def Small (ws : List Nat) : Prop := ∀ w ∈ ws, w < 65536

theorem hex_text_length {w : Nat} (small : w < 65536) : 1 ≤ (hexText w).length ∧ (hexText w).length ≤ 4 := by
  have short : (Nat.digits 16 w).length ≤ 4 := by
    rw [Nat.digits_length_le_iff (by decide)]
    exact small
  rw [hexText, length_map, numeral_length]
  omega

theorem hexval_hex_char : ∀ d < 16, hexval (hexChar d) = some d := by decide

theorem hex_text_hextet (w : Nat) (small : w < 65536) : Hextet (hexText w) (word w) := by
  obtain ⟨low, high⟩ := hex_text_length small
  refine ⟨numeral 16 1 w, ?_, low, high, by rw [nat_of_numeral]⟩
  rw [hexText, map_map]
  exact map_congr_left fun d mem => hexval_hex_char d (numeral_lt 16 1 w (by decide) mem)

theorem joined_hextets (w : Nat) (ws : List Nat) (small : Small (w :: ws)) :
    Hextets (joined (w :: ws)) ((w :: ws).flatMap word) := by
  induction ws generalizing w with
  | nil =>
    have hextet := hex_text_hextet w (small w mem_cons_self)
    rw [joined, colonText, flatMap_nil, append_nil, flatMap_singleton]
    exact .one _ _ hextet
  | cons v ws ih =>
    have hextet := hex_text_hextet w (small w mem_cons_self)
    exact .more _ _ _ _ hextet (ih v (forall_mem_cons.mp small).2)

theorem joined_or_none (ws : List Nat) (small : Small ws) : OrNone Hextets (joined ws) (ws.flatMap word) := by
  cases ws with
  | nil => exact .inl ⟨rfl, rfl⟩
  | cons w ws => exact .inr (joined_hextets w ws small)

variable {ws : List Nat} (best : Option (Nat × Nat))
def Separated (i : Nat) : Prop := i ≠ 0 ∧ best.map (fun run => run.1 + run.2) ≠ some i

theorem separated_some (b n i : Nat) : Separated (some (b, n)) i ↔ i ≠ 0 ∧ b + n ≠ i := by
  rw [Separated, Option.map_some, ne_eq (some (b + n)), Option.some.injEq]

theorem first_some (b n i : Nat) : (some (b, n)).map Prod.fst ≠ some i ↔ b ≠ i := by
  rw [Option.map_some, ne_eq, Option.some.injEq]

theorem word_narrow (small : Small ws) (whole : ws.length = 8) (i : Nat) (inside : i < 8) :
    (hexText (ws.getD i 0)).length ≤ 4 := by
  rw [getD_eq_getElem _ _ (by omega)]
  exact (hex_text_length (small _ (List.getElem_mem _))).2

theorem print_word (small : Small ws) (whole : ws.length = 8) (steps i : Nat) {out : Bytes} (inside : i < 8)
    (other : best.map Prod.fst ≠ some i) (short : out.length ≤ 5 * i) {lead : Bytes}
    (marked : (Separated best i ∧ lead = [58]) ∨ (¬ Separated best i ∧ lead = [])) :
    let text := out ++ lead ++ hexText (ws.getD i 0)
    printWords ws best (steps + 1) i (46 - out.length) out = printWords ws best steps (i + 1) (46 - text.length) text ∧
      text.length ≤ 5 * (i + 1) := by
  have narrow := word_narrow small whole i inside
  unfold Separated at marked
  rw [printWords, if_pos inside, if_neg other]
  rcases marked with ⟨mark, rfl⟩ | ⟨mark, rfl⟩
  · simp only [if_pos mark, length_append, length_singleton]
    rw [if_neg (by omega), if_neg (by omega)]
    refine ⟨?_, by omega⟩
    congr 1
    omega
  · simp only [if_neg mark, append_nil, length_append]
    rw [if_neg (fun both => mark both.1), if_neg (by omega)]
    refine ⟨?_, by omega⟩
    congr 1
    omega

theorem segment_cons {ws : List Nat} {i k : Nat} (inside : i < ws.length) :
    (ws.drop i).take (k + 1) = ws.getD i 0 :: (ws.drop (i + 1)).take k := by
  rw [drop_eq_getElem_cons inside, take_succ_cons, getD_eq_getElem _ _ inside]

theorem print_led (small : Small ws) (whole : ws.length = 8) (steps k i : Nat) (out lead : Bytes) (inside : i + (k + 1) ≤ 8)
    (other : ∀ j, i ≤ j → j < i + (k + 1) → best.map Prod.fst ≠ some j)
    (marked : (Separated best i ∧ lead = [58]) ∨ (¬ Separated best i ∧ lead = []))
    (rest : ∀ j, i < j → j < i + (k + 1) → Separated best j) (short : out.length ≤ 5 * i) :
    let text := out ++ lead ++ hexText (ws.getD i 0) ++ colonText ((ws.drop (i + 1)).take k)
    printWords ws best (steps + (k + 1)) i (46 - out.length) out =
      printWords ws best steps (i + (k + 1)) (46 - text.length) text ∧ text.length ≤ 5 * (i + (k + 1)) := by
  induction k generalizing i out lead with
  | zero =>
    simpa [colonText] using print_word best small whole steps i inside (other i (Nat.le_refl i) (by omega)) short marked
  | succ k ih =>
    obtain ⟨word, grown⟩ := print_word best small whole (steps + (k + 1)) i (by omega)
      (other i (Nat.le_refl i) (by omega)) short marked
    have later := ih (i + 1) _ [58] (by omega) (fun j low high => other j (by omega) (by omega))
      (.inl ⟨rest (i + 1) (by omega) (by omega), rfl⟩) (fun j low high => rest j (by omega) (by omega)) grown
    rw [segment_cons (by omega), ← Nat.add_assoc steps, word, Nat.add_comm (k + 1), ← Nat.add_assoc i]
    simpa [colonText] using later

theorem print_joined (small : Small ws) (whole : ws.length = 8) (steps k i : Nat) (out : Bytes) (inside : i + k ≤ 8)
    (other : ∀ j, i ≤ j → j < i + k → best.map Prod.fst ≠ some j) (first : ¬ Separated best i)
    (rest : ∀ j, i < j → j < i + k → Separated best j) (short : out.length ≤ 5 * i) :
    printWords ws best (steps + k) i (46 - out.length) out =
      printWords ws best steps (i + k) (46 - (out ++ joined ((ws.drop i).take k)).length)
        (out ++ joined ((ws.drop i).take k)) ∧ (out ++ joined ((ws.drop i).take k)).length ≤ 5 * (i + k) := by
  cases k with
  | zero => simpa [joined] using short
  | succ k =>
    have led := print_led best small whole steps k i out [] inside other (.inr ⟨first, rfl⟩) rest short
    rw [append_nil, append_assoc] at led
    rwa [segment_cons (by omega), joined]

theorem print_stops (steps left : Nat) (out : Bytes) : printWords ws best steps 8 left out = some out := by
  cases steps with
  | zero => rfl
  | succ steps => rw [printWords, if_neg (Nat.lt_irrefl 8)]

theorem printed_full (small : Small ws) (whole : ws.length = 8) :
    printWords ws none 8 0 46 [] = some (joined ws) ∧ (joined ws).length ≤ 40 := by
  have unsplit : ¬ Separated none 0 := fun mark => mark.1 rfl
  obtain ⟨ran, bound⟩ := print_joined none small whole 0 8 0 [] (Nat.le_refl 8)
    (fun j _ _ none_of => nomatch none_of) unsplit (fun j low _ => ⟨by omega, fun none_of => nomatch none_of⟩) (Nat.le_refl 0)
  rw [nil_append, drop_zero, take_of_length_le (by omega)] at ran bound
  exact ⟨by rw [print_stops] at ran; exact ran, bound⟩

theorem printed_gap (small : Small ws) (whole : ws.length = 8) {run : Nat × Nat} (inside : run.1 + run.2 ≤ 8)
    (wide : 2 ≤ run.2) : ∃ text, printWords ws (some run) 8 0 46 [] = some text ∧ text.length ≤ 40 ∧
      text = joined (ws.take run.1) ++ [58, 58] ++ joined (ws.drop (run.1 + run.2)) := by
  obtain ⟨b, n⟩ := run
  dsimp only at inside wide ⊢
  have before := print_joined (some (b, n)) small whole (8 - b) b 0 [] (by omega)
    (fun j _ high => (first_some b n j).mpr (by omega)) (fun mark => mark.1 rfl)
    (fun j low high => (separated_some b n j).mpr ⟨by omega, by omega⟩) (Nat.le_refl 0)
  have steps : 8 - b + b = 8 := by omega
  rw [nil_append, drop_zero, Nat.zero_add, steps] at before
  obtain ⟨before, bound⟩ := before
  obtain ⟨fuel, more⟩ : ∃ fuel, 8 - b = fuel + 1 := ⟨7 - b, by omega⟩
  have gap : printWords ws (some (b, n)) (8 - b) b (46 - (joined (ws.take b)).length) (joined (ws.take b)) =
      printWords ws (some (b, n)) fuel (b + n) (46 - (joined (ws.take b) ++ [58, 58]).length)
        (joined (ws.take b) ++ [58, 58]) := by
    rw [more, printWords, if_pos (by omega), if_pos (Option.map_some ..), if_neg (by omega), length_append,
      Option.getD_some]
    congr 1
  have grown : (joined (ws.take b) ++ [58, 58]).length ≤ 5 * (b + n) := by
    rw [length_append]
    change _ + 2 ≤ _
    omega
  have rest := print_joined (some (b, n)) small whole (fuel - (8 - (b + n))) (8 - (b + n)) (b + n)
    (joined (ws.take b) ++ [58, 58]) (by omega) (fun j low _ => (first_some b n j).mpr (by omega))
    (fun mark => ((separated_some b n (b + n)).mp mark).2 rfl)
    (fun j low _ => (separated_some b n j).mpr ⟨by omega, by omega⟩) grown
  have onward : fuel - (8 - (b + n)) + (8 - (b + n)) = fuel ∧ b + n + (8 - (b + n)) = 8 := by omega
  have last : (ws.drop (b + n)).take (8 - (b + n)) = ws.drop (b + n) := take_of_length_le (by rw [length_drop]; omega)
  rw [onward.1, onward.2, last, print_stops] at rest
  refine ⟨_, ?_, rest.2, rfl⟩
  change printWords ws (some (b, n)) 8 0 (46 - ([] : Bytes).length) [] = _
  rw [before, gap]
  exact rest.1

end

section

theorem word_pair (hi lo : UInt8) : word (hi.toNat * 256 + lo.toNat) = [hi, lo] := by
  have below := lo.toNat_lt
  have high : (hi.toNat * 256 + lo.toNat) / 256 = hi.toNat := by omega
  have low : UInt8.ofNat (hi.toNat * 256 + lo.toNat) = lo := by
    apply UInt8.toNat_inj.mp
    rw [UInt8.toNat_ofNat']
    omega
  rw [word, high, low, UInt8.ofNat_toNat]

theorem pairs_take (b : Bytes) (n : Nat) (inside : 2 * n ≤ b.length) :
    ((List.range n).flatMap fun i => [b.getD (2 * i) 0, b.getD (2 * i + 1) 0]) = b.take (2 * n) := by
  induction n with
  | zero => rfl
  | succ n ih =>
    have even : 2 * n < b.length := by omega
    have odd : 2 * n + 1 < b.length := by omega
    rw [range_succ, flatMap_append, ih (by omega), flatMap_singleton, Nat.mul_succ, take_add_one,
      take_add_one, List.getElem?_eq_getElem even, List.getElem?_eq_getElem odd, getD_eq_getElem _ _ even,
      getD_eq_getElem _ _ odd, append_assoc]
    rfl

variable {b : Bytes}
theorem words_length (b : Bytes) : (words b).length = 8 := by rw [words, length_map, length_range]

theorem words_small (b : Bytes) : Small (words b) := by
  intro w mem
  obtain ⟨i, _, rfl⟩ := mem_map.mp mem
  have high := (b.getD (2 * i) 0).toNat_lt
  have low := (b.getD (2 * i + 1) 0).toNat_lt
  omega

theorem words_bytes (size : b.length = 16) : (words b).flatMap word = b := by
  have pairs := pairs_take b 8 (by omega)
  rw [take_of_length_le (by omega)] at pairs
  rw [words, flatMap_map]
  simp only [word_pair]
  exact pairs

variable (ws : List Nat)
theorem zero_words (zero : ∀ w ∈ ws, w = 0) : ws.flatMap word = List.replicate (2 * ws.length) 0 := by
  induction ws with
  | nil => rfl
  | cons w ws ih =>
    rw [flatMap_cons, ih (forall_mem_cons.mp zero).2, zero w mem_cons_self,
      length_cons, Nat.mul_succ, Nat.add_comm, replicate_add]
    rfl

theorem word_bytes_length : (ws.flatMap word).length = 2 * ws.length := by
  induction ws with
  | nil => rfl
  | cons w ws ih =>
    rw [flatMap_cons, length_append, word_length, ih, length_cons]
    omega

theorem gap_bytes (whole : ws.length = 8) (run : Nat × Nat) (zeros : ZeroRun ws run) :
    ws.flatMap word = (ws.take run.1).flatMap word ++ List.replicate (2 * run.2) 0 ++
      (ws.drop (run.1 + run.2)).flatMap word := by
  obtain ⟨inside, zero⟩ := zeros
  have middle : ((ws.drop run.1).take run.2).flatMap word = List.replicate (2 * run.2) 0 := by
    rw [zero_words, length_take, length_drop, Nat.min_eq_left (by omega)]
    intro w mem
    obtain ⟨k, bound, rfl⟩ := mem_iff_getElem.mp mem
    rw [length_take, length_drop] at bound
    rw [List.getElem_take, List.getElem_drop, ← zero (run.1 + k) (by omega) (by omega),
      getD_eq_getElem _ _ (by omega)]
  have parts : ws = ws.take run.1 ++ ((ws.drop run.1).take run.2 ++ ws.drop (run.1 + run.2)) := by
    rw [← drop_drop, take_append_drop, take_append_drop]
  calc ws.flatMap word
      = (ws.take run.1 ++ ((ws.drop run.1).take run.2 ++ ws.drop (run.1 + run.2))).flatMap word := by rw [← parts]
    _ = _ := by rw [flatMap_append, flatMap_append, middle, append_assoc]

theorem quad_text_quad (b : Bytes) (size : b.length = 4) : Quad (quadText b) b := by
  obtain ⟨a₀, a₁, a₂, a₃, rfl⟩ := length_eq_four.mp size
  exact ⟨a₀, a₁, a₂, a₃, rfl, rfl⟩

theorem octet_text_length (c : UInt8) : (digits c.toNat).length ≤ 3 := by
  have below := c.toNat_lt
  exact digits_length 2 c.toNat (by omega)

theorem quad_text_length (b : Bytes) : (quadText b).length ≤ 15 := by
  have part := fun i => octet_text_length (b.getD i 0)
  have first := part 0
  have second := part 1
  have third := part 2
  have fourth := part 3
  simp only [quadText, length_append, length_cons]
  omega

end

section
section
variable (b : Bytes) (size : b.length = 16)
include b size

theorem full_address : Address (joined (words b)) b := by
  have small := words_small b
  have whole := words_length b
  have bytes := words_bytes size
  generalize words b = ws at small whole bytes
  cases ws with
  | nil => cases whole
  | cons w ws =>
    have hextets := joined_hextets w ws small
    rw [bytes] at hextets
    exact .full _ _ (.hextets _ _ hextets) size

theorem gap_address_text (run : Nat × Nat) (zeros : ZeroRun (words b) run) (wide : 2 ≤ run.2) :
    Address (joined ((words b).take run.1) ++ [58, 58] ++ joined ((words b).drop (run.1 + run.2))) b := by
  have small := words_small b
  have whole := words_length b
  have bytes := gap_bytes (words b) whole run zeros
  obtain ⟨inside, _⟩ := zeros
  rw [words_bytes size] at bytes
  have front := joined_or_none ((words b).take run.1) fun w mem => small w (mem_of_mem_take mem)
  have back := joined_or_none ((words b).drop (run.1 + run.2)) fun w mem => small w (mem_of_mem_drop mem)
  have lengths : (((words b).take run.1).flatMap word).length + (((words b).drop (run.1 + run.2)).flatMap word).length =
      16 - 2 * run.2 := by
    rw [word_bytes_length, word_bytes_length, length_take, length_drop, whole]
    omega
  have address := Address.compressed _ _ _ _ front (back.imp_right fun hextets => .hextets _ _ hextets) (by omega)
  have missing : 16 - (16 - 2 * run.2) = 2 * run.2 := by omega
  rw [lengths, missing, ← bytes] at address
  rw [append_assoc]
  exact address

theorem mapped_address (mapped : b.take 12 = mappedStart) : Address (mappedLead ++ quadText (b.drop 12)) b := by
  have quad := quad_text_quad (b.drop 12) (by rw [length_drop, size])
  have lead : Hextet [102, 102, 102, 102] [255, 255] := ⟨[15, 15, 15, 15], by decide, by decide, by decide, by decide⟩
  have groups := Groups.mixed _ _ _ _ (.one _ _ lead) quad
  have address := Address.compressed [] [] _ _ (.inl ⟨rfl, rfl⟩) (.inr groups)
    (by rw [length_append, length_drop, size]; decide)
  rw [length_append, length_drop, size] at address
  have bytes : b = mappedStart ++ b.drop 12 := by rw [← mapped, take_append_drop]
  rw [bytes] at address ⊢
  exact address

theorem ntop6_address : ∃ text, ntop6Text b = some text ∧ text.length ≤ 40 ∧ Address text b := by
  rw [ntop6Text]
  split
  · rename_i mapped
    refine ⟨_, rfl, ?_, mapped_address b size mapped⟩
    have short := quad_text_length (b.drop 12)
    rw [length_append]
    change 7 + _ ≤ 40
    omega
  · have zeros := best_run_zeros (words b) 8 0 (0, 0) ⟨Nat.zero_le 8, fun k _ none_in => absurd none_in (Nat.not_lt_zero k)⟩
      (Nat.zero_le 8)
    dsimp only
    split
    · have printed := printed_full (words_small b) (words_length b)
      exact ⟨_, printed.1, printed.2, full_address b size⟩
    · rename_i wide
      obtain ⟨text, printed, short, shape⟩ := printed_gap (words_small b) (words_length b) zeros.1 (by omega)
      refine ⟨text, printed, short, ?_⟩
      rw [shape]
      exact gap_address_text b size _ zeros (by omega)

end

theorem delivered (text : Bytes) (size : Nat) (fits : text.length < size) (small : size ≤ inet6Addrstrlen) :
    deliver (some text) size = some text := by
  rw [deliver, Option.bind_some, if_neg (by omega)]

theorem address_text :
    (∀ src : InAddr, ∃ text, inetNtop4 src inetAddrstrlen = some text ∧ text.length < inetAddrstrlen ∧
      inetPton .inet text = some src.bytes) ∧
    (∀ src : In6Addr, ∃ text, inetNtop6 src inet6Addrstrlen = some text ∧ text.length < inet6Addrstrlen ∧
      inetPton .inet6 text = some src.bytes) ∧
    ∀ text bytes, inetPton .inet6 text = some bytes ↔ Address text bytes := by
  refine ⟨fun src => ?_, fun src => ?_, pton6_iff⟩
  · have short : (quadText src.bytes).length < inetAddrstrlen := Nat.lt_succ_of_le (quad_text_length src.bytes)
    exact ⟨_, delivered _ _ short (by decide), short, (pton4_iff _ _).mpr (quad_text_quad src.bytes src.size)⟩
  · obtain ⟨text, printed, short, address⟩ := ntop6_address src.bytes src.size
    have fits : text.length < inet6Addrstrlen := Nat.lt_of_le_of_lt short (by decide)
    refine ⟨text, ?_, fits, (pton6_iff _ _).mpr address⟩
    rw [inetNtop6, printed]
    exact delivered text _ fits (Nat.le_refl _)

end
end Spicule.Inet

import Spicule.Lib.Canonical

namespace Spicule.Gunzip
open List Bits Canonical

structure BitReader where
  data : List UInt8
  pos : Nat
  bitbuf : Nat
  bitcnt : Nat
  errmsg : Option String
deriving DecidableEq, Repr

def BitReader.error (br : BitReader) (message : String) : BitReader := { br with errmsg := some message }

def bitGet (br : BitReader) : Nat × BitReader :=
  if br.errmsg.isSome then (0, br)
  else if br.bitcnt = 0 then
    match br.data[br.pos]? with
    | none => (0, br.error "truncated DEFLATE stream")
    | some byte => (byte.toNat % 2, { br with pos := br.pos + 1, bitbuf := byte.toNat / 2, bitcnt := 7 })
  else (br.bitbuf % 2, { br with bitbuf := br.bitbuf / 2, bitcnt := br.bitcnt - 1 })

def bitGetnFrom : Nat → Nat → Nat → BitReader → Nat × BitReader
  | 0, _, val, br => (val, br)
  | n + 1, i, val, br =>
    let (bit, br) := bitGet br
    bitGetnFrom n (i + 1) (val ||| bit <<< i) br

def bitGetn (br : BitReader) (n : Nat) : Nat × BitReader := bitGetnFrom n 0 0 br

def bitAlign (br : BitReader) : BitReader := { br with bitcnt := 0, bitbuf := 0 }

-- `memory n` says whether realloc finds n bytes; size_t ends at `sizeMax`.
structure Host where
  sizeMax : Nat
  memory : Nat → Bool

structure Gzbuf where
  data : List UInt8
  cap : Nat

def doubled (maximum minimum : Nat) : Nat → Nat → Nat
  | 0, capacity => capacity
  | fuel + 1, capacity =>
    if capacity < minimum then
      if capacity > maximum / 2 then minimum else doubled maximum minimum fuel (capacity * 2)
    else capacity

def arrayCapacity (sizeMax current used additional initial elementSize : Nat) : Option Nat :=
  if initial = 0 ∨ elementSize = 0 ∨ sizeMax < used + additional then none
  else
    let minimum := used + additional
    let maximum := sizeMax / elementSize
    if minimum > maximum ∨ current > maximum then none
    else some (doubled maximum minimum minimum (if current < initial then initial else current))

def gzbufAppendByte (host : Host) (b : Gzbuf) (c : UInt8) : Option Gzbuf :=
  if b.data.length + 1 > b.cap then
    match arrayCapacity host.sizeMax b.cap b.data.length 1 256 1 with
    | none => none
    | some newcap => if host.memory newcap then some { data := b.data ++ [c], cap := newcap } else none
  else some { b with data := b.data ++ [c] }

def manGzMaxOutput : Nat := 64 * 1024 * 1024

def gzEmit (host : Host) (br : BitReader) (out : Gzbuf) (c : UInt8) : Bool × BitReader × Gzbuf :=
  if out.data.length ≥ manGzMaxOutput then
    (false, br.error "decompressed data exceeds this implementation's size limit", out)
  else
    match gzbufAppendByte host out c with
    | none => (false, br.error "out of memory", out)
    | some out => (true, br, out)

def BitReader.bits (br : BitReader) : List Bool := lsb br.bitcnt br.bitbuf ++ Bits.bits (br.data.drop br.pos)

structure Sound (br : BitReader) : Prop where
  clear : br.errmsg = none
  partly : br.bitcnt < 8

theorem bit_get_bits {br : BitReader} {b : Bool} {rest : List Bool} (sound : Sound br) (ahead : br.bits = b :: rest) :
    (bitGet br).1 = b.toNat ∧ (bitGet br).2.bits = rest ∧ Sound (bitGet br).2 := by
  have partly := sound.partly
  unfold bitGet
  rw [sound.clear, Option.isSome_none, if_neg Bool.false_ne_true]
  by_cases empty : br.bitcnt = 0
  · rw [if_pos empty]
    unfold BitReader.bits at ahead
    rw [empty, lsb, nil_append] at ahead
    cases found : br.data[br.pos]? with
    | none =>
      rw [drop_eq_nil_of_le (List.getElem?_eq_none_iff.mp found)] at ahead
      cases ahead
    | some byte =>
      obtain ⟨inside, here⟩ := List.getElem?_eq_some_iff.mp found
      rw [drop_eq_getElem_cons inside, here, bits_cons, byteBits, lsb, cons_append] at ahead
      injection ahead with first others
      refine ⟨?_, others, ⟨rfl, show 7 < 8 by decide⟩⟩
      rw [← first, bit_to_nat]
  · obtain ⟨left, cnt⟩ : ∃ left, br.bitcnt = left + 1 := ⟨br.bitcnt - 1, by omega⟩
    rw [if_neg empty]
    unfold BitReader.bits at ahead ⊢
    rw [cnt, lsb, cons_append] at ahead
    injection ahead with first others
    refine ⟨?_, ?_, ⟨rfl, ?_⟩⟩
    · rw [← first, bit_to_nat]
    · rw [← others, cnt, Nat.add_sub_cancel]
    · show br.bitcnt - 1 < 8
      omega

theorem bit_getn_from_bits (n i val v : Nat) (br : BitReader) (rest : List Bool) (sound : Sound br) (small : val < 2 ^ i)
    (ahead : br.bits = lsb n v ++ rest) :
    (bitGetnFrom n i val br).1 = val + 2 ^ i * (v % 2 ^ n) ∧ (bitGetnFrom n i val br).2.bits = rest ∧
      Sound (bitGetnFrom n i val br).2 := by
  induction n generalizing i val v br with
  | zero =>
    refine ⟨?_, ahead, sound⟩
    rw [bitGetnFrom, Nat.pow_zero, Nat.mod_one, Nat.mul_zero, Nat.add_zero]
  | succ n ih =>
    rw [lsb, cons_append] at ahead
    obtain ⟨value, remaining, sound'⟩ := bit_get_bits sound ahead
    rw [bit_to_nat] at value
    have joined : val ||| (v % 2) <<< i = val + 2 ^ i * (v % 2) := by
      rw [Nat.shiftLeft_eq, Nat.mul_comm, Nat.add_comm, Nat.or_comm]
      exact (Nat.two_pow_add_eq_or_of_lt small (v % 2)).symm
    have small' : val + 2 ^ i * (v % 2) < 2 ^ (i + 1) := by
      have bit := Nat.mod_lt v (show 0 < 2 by omega)
      have scaled := Nat.mul_le_mul_left (2 ^ i) (Nat.le_of_lt_succ bit)
      rw [pow_succ]
      omega
    obtain ⟨value', remaining', sound''⟩ := ih (i + 1) (val + 2 ^ i * (v % 2)) (v / 2) (bitGet br).2 sound' small' remaining
    simp only [bitGetnFrom, value, joined]
    refine ⟨?_, remaining', sound''⟩
    rw [value', Nat.pow_succ, Nat.pow_succ, Nat.mul_comm (2 ^ n) 2, Nat.mod_mul, Nat.mul_add]
    rw [mul_assoc, add_assoc]

theorem bit_getn_bits (n v : Nat) (br : BitReader) (rest : List Bool) (sound : Sound br) (small : v < 2 ^ n)
    (ahead : br.bits = lsb n v ++ rest) :
    (bitGetn br n).1 = v ∧ (bitGetn br n).2.bits = rest ∧ Sound (bitGetn br n).2 := by
  obtain ⟨value, remaining, sound'⟩ := bit_getn_from_bits n 0 0 v br rest sound (by decide) ahead
  refine ⟨?_, remaining, sound'⟩
  rw [bitGetn, value, Nat.pow_zero, Nat.zero_add, Nat.one_mul, Nat.mod_eq_of_lt small]

def maxbits : Nat := 15

structure Huff where
  count : Nat → Nat
  symbol : Nat → Nat

def put (array : Nat → Nat) (index value : Nat) : Nat → Nat := fun i => if i = index then value else array i

def countLengths : List Nat → (Nat → Nat) → Nat → Nat
  | [], count => count
  | len :: rest, count => countLengths rest (put count len (count len + 1))

def offs (count : Nat → Nat) : Nat → Nat
  | 0 => 0
  | 1 => 0
  | len + 2 => offs count (len + 1) + count (len + 1)

def placeSymbols : List Nat → Nat → (Nat → Nat) → (Nat → Nat) → Nat → Nat
  | [], _, _, symbol => symbol
  | len :: rest, sym, offs, symbol =>
    if len ≠ 0 then placeSymbols rest (sym + 1) (put offs len (offs len + 1)) (put symbol (offs len) sym)
    else placeSymbols rest (sym + 1) offs symbol

def huffBuild (lengths : List Nat) : Huff :=
  let count := put (countLengths lengths fun _ => 0) 0 0
  { count := count, symbol := placeSymbols lengths 0 (offs count) fun _ => 0 }

def huffLoop (h : Huff) : Nat → Nat → Nat → Nat → Nat → BitReader → Option Nat × BitReader
  | 0, _, _, _, _, br => (none, br.error "invalid Huffman code in DEFLATE stream")
  | fuel + 1, len, code, first, index, br =>
    let (bit, br) := bitGet br
    let code := code ||| bit
    if br.errmsg.isSome then (none, br)
    else if (code : Int) - first < h.count len then (some (h.symbol ((index : Int) + (code - first)).toNat), br)
    else huffLoop h fuel (len + 1) (code <<< 1) ((first + h.count len) <<< 1) (index + h.count len) br

def huffDecode (br : BitReader) (h : Huff) : Option Nat × BitReader := huffLoop h maxbits 1 0 0 0 br

variable (lengths : List Nat)
theorem count_lengths_count (count : Nat → Nat) (len : Nat) :
    countLengths lengths count len = count len + lengths.count len := by
  induction lengths generalizing count with
  | nil => rfl
  | cons first rest ih =>
    rw [countLengths, ih, put, count_cons]
    by_cases same : len = first
    · rw [if_pos same, if_pos (beq_iff_eq.mpr same.symm), same]
      omega
    · rw [if_neg same, if_neg (fun equal => same (beq_iff_eq.mp equal).symm)]
      omega

theorem huff_build_count (len : Nat) : (huffBuild lengths).count len = used lengths len := by
  simp only [huffBuild, put, used]
  split
  · rfl
  · rw [count_lengths_count, zero_add]

theorem offs_offset (len : Nat) : offs (huffBuild lengths).count len = offset lengths len := by
  induction len with
  | zero => rfl
  | succ len ih =>
    cases len with
    | zero => simp [offs, offset, used]
    | succ len => rw [offs, ih, huff_build_count]; rfl

structure Placed (lengths : List Nat) (placed : Nat) (next symbol : Nat → Nat) : Prop where
  next_slot : ∀ len, len ≠ 0 → next len = offset lengths len + (lengths.take placed).count len
  slots : ∀ sym, sym < placed → Coded lengths sym →
    symbol (offset lengths (lengths.getD sym 0) + rank lengths sym) = sym

variable {sym : Nat}
theorem placed_coded {next symbol : Nat → Nat} (coded : Coded lengths sym) (placed : Placed lengths sym next symbol) :
    Placed lengths (sym + 1) (put next (lengths.getD sym 0) (next (lengths.getD sym 0) + 1))
      (put symbol (next (lengths.getD sym 0)) sym) := by
  have slot : next (lengths.getD sym 0) = offset lengths (lengths.getD sym 0) + rank lengths sym :=
    placed.next_slot _ coded.2
  constructor
  · intro len nonzero
    rw [take_succ_count lengths sym len coded.1, put]
    by_cases same : len = lengths.getD sym 0
    · rw [if_pos same, if_pos same.symm, ← same, placed.next_slot len nonzero]
      omega
    · rw [if_neg same, if_neg (fun equal => same equal.symm), placed.next_slot len nonzero]
      omega
  · intro other before codedOther
    rw [put, slot]
    by_cases here : other = sym
    · rw [here, if_pos rfl]
    · rw [if_neg (fun equal => here (slot_inj lengths codedOther coded equal))]
      exact placed.slots other (by omega) codedOther

theorem placed_uncoded {next symbol : Nat → Nat} (inside : sym < lengths.length)
    (uncoded : lengths.getD sym 0 = 0) (placed : Placed lengths sym next symbol) :
    Placed lengths (sym + 1) next symbol := by
  constructor
  · intro len nonzero
    rw [take_succ_count lengths sym len inside, uncoded, if_neg (fun equal => nonzero equal.symm),
      placed.next_slot len nonzero, add_zero]
  · intro other before coded
    by_cases here : other = sym
    · exact absurd (here ▸ uncoded) coded.2
    · exact placed.slots other (by omega) coded

variable (sym) in
theorem place_symbols_placed (rest : List Nat) (sym : Nat) (next symbol : Nat → Nat)
    (split : lengths.drop sym = rest) (placed : Placed lengths sym next symbol) :
    ∀ other, Coded lengths other →
      placeSymbols rest sym next symbol (offset lengths (lengths.getD other 0) + rank lengths other) = other := by
  induction rest generalizing sym next symbol with
  | nil =>
    intro other coded
    have ended := drop_eq_nil_iff.mp split
    exact placed.slots other (Nat.lt_of_lt_of_le coded.1 ended) coded
  | cons len rest ih =>
    have inside : sym < lengths.length := by
      apply Nat.lt_of_not_le
      intro ended
      rw [drop_eq_nil_of_le ended] at split
      cases split
    rw [drop_eq_getElem_cons inside] at split
    injection split with here behind
    have entry : lengths.getD sym 0 = len := by simp [List.getD, inside, here]
    unfold placeSymbols
    split
    · rename_i nonzero
      have step := placed_coded lengths ⟨inside, entry ▸ nonzero⟩ placed
      rw [entry] at step
      exact ih (sym + 1) _ _ behind step
    · rename_i zero
      exact ih (sym + 1) next symbol behind
        (placed_uncoded lengths inside (entry.trans (Classical.not_not.mp zero)) placed)

theorem huff_build_symbol (coded : Coded lengths sym) :
    (huffBuild lengths).symbol (offset lengths (lengths.getD sym 0) + rank lengths sym) = sym := by
  refine place_symbols_placed lengths lengths 0 (offs (huffBuild lengths).count) (fun _ => 0) rfl ?_ sym coded
  constructor
  · intro len nonzero
    rw [offs_offset, take_zero, count_nil, add_zero]
  · intro other before
    omega

theorem next_bit (n left : Nat) :
    2 * (n / 2 ^ (left + 1)) ||| (decide (n / 2 ^ left % 2 = 1)).toNat = n / 2 ^ left := by
  have bit := bit_to_nat (n / 2 ^ left)
  have joined := Nat.two_pow_add_eq_or_of_lt
    (show (decide (n / 2 ^ left % 2 = 1)).toNat < 2 ^ 1 by rw [bit]; exact Nat.mod_lt _ (by decide)) (n / 2 ^ (left + 1))
  rw [Nat.pow_one] at joined
  rw [← joined, bit, Nat.pow_succ, ← Nat.div_div_eq_div_mul]
  omega

theorem huff_loop_code (coded : Coded lengths sym) (left done fuel : Nat)
    (br : BitReader) (rest : List Bool) (sound : Sound br) (length : done + (left + 1) = lengths.getD sym 0)
    (enough : left < fuel) (ahead : br.bits = msb (left + 1) (code lengths sym) ++ rest) :
    ∃ after, huffLoop (huffBuild lengths) fuel (done + 1) (2 * (code lengths sym / 2 ^ (left + 1)))
        (firstCode lengths (done + 1)) (offset lengths (done + 1)) br = (some sym, after) ∧
      after.bits = rest ∧ Sound after := by
  induction left generalizing done br fuel with
  | zero =>
    rcases fuel with _ | fuel
    · omega
    rw [msb, msb, cons_append, nil_append] at ahead
    obtain ⟨value, remaining, sound'⟩ := bit_get_bits sound ahead
    refine ⟨(bitGet br).2, ?_, remaining, sound'⟩
    rw [Nat.zero_add] at length
    have slot := rank_lt_used lengths coded
    have shape : code lengths sym = firstCode lengths (done + 1) + rank lengths sym := by rw [code, ← length]
    have found := huff_build_symbol lengths coded
    rw [← length] at slot found
    have joined := next_bit (code lengths sym) 0
    rw [← value, Nat.pow_zero, Nat.div_one] at joined
    simp only [huffLoop, joined, sound'.clear, Option.isSome_none, Bool.false_eq_true, if_false, huff_build_count]
    rw [shape, if_pos (by omega)]
    rw [show ((offset lengths (done + 1) : Int) + (((firstCode lengths (done + 1) + rank lengths sym : Nat) : Int) -
      (firstCode lengths (done + 1) : Int))).toNat = offset lengths (done + 1) + rank lengths sym by omega, found]
  | succ left ih =>
    rcases fuel with _ | fuel
    · omega
    rw [msb, cons_append] at ahead
    obtain ⟨value, remaining, sound'⟩ := bit_get_bits sound ahead
    have cut := code_cut lengths sym (done + 1) (by omega)
    rw [show lengths.getD sym 0 - (done + 1) = left + 1 by omega] at cut
    obtain ⟨after, run, final⟩ := ih (done + 1) fuel (bitGet br).2 sound' (by omega) (by omega) remaining
    refine ⟨after, ?_, final⟩
    simp only [huffLoop, value, next_bit, sound'.clear, Option.isSome_none, Bool.false_eq_true, if_false,
      huff_build_count]
    rw [if_neg (by omega), ← run, Nat.shiftLeft_eq, Nat.shiftLeft_eq, Nat.pow_one, Nat.mul_comm _ 2]
    rfl

theorem huff_decode_code (coded : Coded lengths sym) (code : PrefixCode lengths maxbits)
    (br : BitReader) (rest : List Bool) (sound : Sound br) (ahead : br.bits = codeBits lengths sym ++ rest) :
    ∃ after, huffDecode br (huffBuild lengths) = (some sym, after) ∧ after.bits = rest ∧ Sound after := by
  have short : lengths.getD sym 0 ≤ maxbits := by
    have here : lengths.getD sym 0 = lengths.get ⟨sym, coded.1⟩ := by simp [List.getD, coded.1]
    exact here ▸ code.short _ (List.getElem_mem coded.1)
  have fits := code_fits lengths coded short code.room
  obtain ⟨left, length⟩ : ∃ left, lengths.getD sym 0 = left + 1 := Nat.exists_eq_succ_of_ne_zero coded.2
  rw [codeBits, length] at ahead
  rw [length] at fits short
  obtain ⟨after, run, final⟩ :=
    huff_loop_code lengths coded left 0 maxbits br rest sound (by omega) (by omega) ahead
  refine ⟨after, ?_, final⟩
  rw [Nat.div_eq_of_lt fits] at run
  exact run

def maxHuffSymbols : Nat := 288

def huffIndexFrom (count : Nat → Nat) : Nat → Nat → Nat → Nat → Nat → BitReader → Option Int × BitReader
  | 0, _, _, _, _, br => (none, br.error "invalid Huffman code in DEFLATE stream")
  | fuel + 1, len, code, first, index, br =>
    let (bit, br) := bitGet br
    let code := code ||| bit
    if br.errmsg.isSome then (none, br)
    else if (code : Int) - first < count len then (some (index + (code - first)), br)
    else huffIndexFrom count fuel (len + 1) (code <<< 1) ((first + count len) <<< 1) (index + count len) br

def huffIndex (br : BitReader) (h : Huff) : Option Int × BitReader := huffIndexFrom h.count maxbits 1 0 0 0 br

theorem huff_loop_index (h : Huff) (fuel len code first index : Nat) (br : BitReader) :
    huffLoop h fuel len code first index br =
      ((huffIndexFrom h.count fuel len code first index br).1.map fun i => h.symbol i.toNat,
        (huffIndexFrom h.count fuel len code first index br).2) := by
  induction fuel generalizing len code first index br with
  | zero => rfl
  | succ fuel ih =>
    simp only [huffLoop, huffIndexFrom]
    split
    · rfl
    · split
      · rfl
      · exact ih _ _ _ _ _

theorem huff_index_slot (fuel len code first : Nat) (br : BitReader) (ordered : first ≤ code) (i : Int)
    (found : (huffIndexFrom (huffBuild lengths).count fuel len code first (offset lengths len) br).1 = some i) :
    ∃ length place, place < used lengths length ∧ i = (offset lengths length + place : Nat) := by
  induction fuel generalizing len code first br with
  | zero => cases found
  | succ fuel ih =>
    have grown : code ≤ code ||| (bitGet br).1 := Nat.left_le_or
    simp only [huffIndexFrom, huff_build_count] at found
    split at found
    · cases found
    · split at found
      · cases found
        exact ⟨len, (code ||| (bitGet br).1) - first, by omega, by omega⟩
      · refine ih (len + 1) _ _ _ ?_ found
        rw [Nat.shiftLeft_eq, Nat.shiftLeft_eq]
        omega

theorem huff_decode_safe (lengths : List Nat) (room : lengths.length ≤ maxHuffSymbols) (br : BitReader) :
    huffDecode br (huffBuild lengths) =
        ((huffIndex br (huffBuild lengths)).1.map fun i => (huffBuild lengths).symbol i.toNat,
          (huffIndex br (huffBuild lengths)).2) ∧
      (∀ i, (huffIndex br (huffBuild lengths)).1 = some i → 0 ≤ i ∧ i < maxHuffSymbols) ∧
      ∀ sym, (huffDecode br (huffBuild lengths)).1 = some sym → sym < lengths.length ∧ lengths.getD sym 0 ≠ 0 := by
  have slot := huff_index_slot lengths maxbits 1 0 0 br (le_refl 0)
  have split := huff_loop_index (huffBuild lengths) maxbits 1 0 0 0 br
  refine ⟨split, ?_, ?_⟩
  · intro i found
    obtain ⟨length, place, inside, rfl⟩ := slot i found
    have := offset_le_length lengths (length + 1)
    rw [offset] at this
    omega
  · intro sym decoded
    rw [huffDecode, split] at decoded
    obtain ⟨i, found, read⟩ := Option.map_eq_some_iff.mp decoded
    obtain ⟨length, place, inside, rfl⟩ := slot i found
    obtain ⟨other, coded, rfl, rfl⟩ := slot_taken lengths length place inside
    rw [Int.toNat_natCast, huff_build_symbol lengths coded] at read
    exact read ▸ coded

theorem huff_decode_safe_crowded :
    (huffDecode ⟨[1], 0, 0, 0, none⟩ (huffBuild [1, 1, 1])).1 = some 1 ∧ 1 < [1, 1, 1].length ∧ [1, 1, 1].getD 1 0 ≠ 0 :=
  ⟨by decide, (huff_decode_safe [1, 1, 1] (by decide) ⟨[1], 0, 0, 0, none⟩).2.2 1 (by decide)⟩

end Spicule.Gunzip

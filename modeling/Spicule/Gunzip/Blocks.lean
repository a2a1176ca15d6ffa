import Spicule.Gunzip.Tokens

namespace Spicule.Gunzip
open List Option Bool Bits Canonical Deflate Nat

variable (br : BitReader)
theorem left_bits : br.left = br.bits.length := by
  rw [BitReader.left, BitReader.bits, length_append, lsb_length, bits_length, length_drop]

theorem code_bits_nonempty {lengths : List Nat} {sym : Nat} (coded : Coded lengths sym) :
    0 < (codeBits lengths sym).length := by
  rw [codeBits, msb_length]
  exact pos_of_ne_zero coded.2

variable {tokens : List Token} {block : List Bool} {lit dist : List Nat}
theorem tokens_lt_bits (coded : SymbolBits lit dist tokens block) : tokens.length < block.length := by
  induction coded with
  | ended coded => exact code_bits_nonempty coded
  | token first rest front back here behind ih =>
    have nonempty : 0 < front.length := by
      cases here with
      | literal byte coded => exact code_bits_nonempty coded
      | copy row extra drow dextra inside coded =>
        rw [length_append]
        exact lt_of_lt_of_le (code_bits_nonempty coded) (le_add_right _ _)
    rw [length_cons, length_append]
    omega

variable {host : Host} {rest : List Bool} {out : Gzbuf}
theorem symbols_yield (roomy : Roomy host) (litCode : PrefixCode lit maxbits)
    (distCode : PrefixCode dist maxbits) {block : List Bool}
    (coded : SymbolBits lit dist tokens block) (sound : Sound br)
    (bounded : out.cap ≤ host.sizeMax) (ahead : br.bits = block ++ rest) (reached : Reaches out.data tokens)
    (small : (expandFrom out.data tokens).length ≤ manGzMaxOutput) :
    Yields host (inflateDecodeBlock host (huffBuild lit) (huffBuild dist) (br.left + 1) br out)
      (expandFrom out.data tokens) rest := by
  have fewer := tokens_lt_bits coded
  have enough : tokens.length < br.left + 1 := by
    rw [left_bits, ahead, length_append]
    omega
  exact decode_block_yields roomy lit dist litCode distCode _ _ coded _ br out rest enough sound bounded
    ahead reached small

-- Two fixed distance codes stand for no distance, and the decoder's table lacks them.
theorem fixed_codes : fixedLit = fixedLitlen ∧
    ((∀ len ∈ fixedLitlen, len ≤ maxbits) ∧ kraft fixedLitlen maxbits ≤ 2 ^ maxbits) ∧
    ((∀ len ∈ fixedDistlen, len ≤ maxbits) ∧ kraft fixedDistlen maxbits ≤ 2 ^ maxbits) ∧
    ∀ row < 30, Coded fixedDistlen row ∧ codeBits fixedDist row = codeBits fixedDistlen row := by
  decide +kernel

theorem fixed_symbols (coded : SymbolBits lit fixedDist tokens block) : SymbolBits lit fixedDistlen tokens block := by
  induction coded with
  | ended coded => exact .ended coded
  | token first rest front back here behind ih =>
    refine .token first rest front back ?_ ih
    cases here with
    | literal byte coded => exact .literal byte coded
    | copy row extra drow dextra inside coded fits dinside dcoded dfits =>
      obtain ⟨coded', same⟩ := fixed_codes.2.2.2 drow dinside
      rw [same]
      exact .copy row extra drow dextra inside coded fits dinside coded' dfits

theorem clen_lengths_bits (clen order : List Nat) (clenSmall : ∀ sym, clen.getD sym 0 < 2 ^ 3) (lengths : List Nat)
    (br : BitReader) (sound : Sound br)
    (ahead : br.bits = (order.flatMap fun sym => lsb 3 (clen.getD sym 0)) ++ rest) :
    ∃ after, clenLengths order br lengths =
        (order.foldl (fun lengths sym => lengths.set sym (clen.getD sym 0)) lengths, after) ∧
      after.bits = rest ∧ Sound after := by
  induction order generalizing lengths br with
  | nil => exact ⟨br, rfl, ahead, sound⟩
  | cons sym order ih =>
    rw [flatMap_cons, append_assoc] at ahead
    obtain ⟨value, behind, sound'⟩ := bit_getn_bits 3 _ br _ sound (clenSmall sym) ahead
    obtain ⟨after, run, final⟩ := ih (lengths.set sym (clen.getD sym 0)) _ sound' behind
    refine ⟨after, ?_, final⟩
    simp only [clenLengths, value]
    exact run

variable (clen order lengths : List Nat)
theorem set_all_getElem (i : Nat) (inside : i < lengths.length) :
    (order.foldl (fun lengths sym => lengths.set sym (clen.getD sym 0)) lengths).getD i 0 =
      if i ∈ order then clen.getD i 0 else lengths.getD i 0 := by
  induction order generalizing lengths with
  | nil => rfl
  | cons sym order ih =>
    rw [foldl_cons, ih _ (by rw [length_set]; exact inside)]
    by_cases later : i ∈ order
    · rw [if_pos later, if_pos (mem_cons_of_mem sym later)]
    · rw [if_neg later]
      by_cases here : i = sym
      · rw [here, if_pos mem_cons_self]
        simp [List.getD, ← here, inside]
      · rw [if_neg (by simp [here, later])]
        simp only [List.getD]
        rw [List.getElem?_set_ne (fun same => here same.symm)]

theorem set_all_length :
    (order.foldl (fun lengths sym => lengths.set sym (clen.getD sym 0)) lengths).length = lengths.length := by
  induction order generalizing lengths with
  | nil => rfl
  | cons sym order ih => rw [foldl_cons, ih, length_set]

theorem clen_sent_all (t : Tables) :
    (lengthOrder.take (t.sent + 4)).foldl (fun lengths sym => lengths.set sym (t.clen.getD sym 0)) (List.replicate 19 0) =
      t.clen := by
  have count := t.clen_count
  apply ext_getElem
  · rw [set_all_length, length_replicate, count]
  · intro i inside inside'
    have listed : ∀ i, i < 19 → i ∈ lengthOrder := by decide
    rw [← getD_eq_getElem _ 0 inside, ← getD_eq_getElem _ 0 inside',
      set_all_getElem _ _ _ i (by rw [length_replicate]; omega)]
    split
    · rfl
    · rename_i unsent
      have mem := listed i (by omega)
      rw [← take_append_drop (t.sent + 4) lengthOrder, mem_append] at mem
      rw [t.clen_sent i (mem.resolve_left unsent), getD_replicate 0 (by omega)]

variable (before : List Nat)
theorem repeat_code_bits (sym width least fill more : Nat) (kind : Run before sym width least fill)
    (sound : Sound br) (small : more < 2 ^ width) (ahead : br.bits = lsb width more ++ rest) :
    ∃ after, repeatCode sym before br = (some (more + least, fill), after) ∧ after.bits = rest ∧ Sound after := by
  obtain ⟨value, behind, sound'⟩ := bit_getn_bits _ more br rest sound small ahead
  refine ⟨_, ?_, behind, sound'⟩
  cases kind with
  | again previous last => simp only [repeatCode, if_true, last, value]
  | zeros | manyZeros => simp only [repeatCode, value]; rfl

theorem run_large (sym width least fill : Nat) (kind : Run before sym width least fill) : 16 ≤ sym ∧ 0 < least := by
  cases kind <;> decide

theorem code_lengths_bits (code : PrefixCode clen maxbits) (before lengths : List Nat) (described : List Bool)
    (coded : LengthBits clen before lengths described) (total fuel : Nat) (br : BitReader)
    (sound : Sound br) (whole : before.length + lengths.length = total) (enough : lengths.length < fuel)
    (ahead : br.bits = described ++ rest) :
    ∃ after, codeLengths (huffBuild clen) total fuel br before = (some (before ++ lengths), after) ∧
      after.bits = rest ∧ Sound after := by
  induction coded generalizing fuel br with
  | done before =>
    rcases fuel with _ | fuel
    · omega
    refine ⟨br, ?_, ahead, sound⟩
    rw [length_nil] at whole
    rw [codeLengths, if_neg (by omega), append_nil]
  | one before others len back small here behind ih =>
    rcases fuel with _ | fuel
    · omega
    rw [append_assoc] at ahead
    rw [length_cons] at whole enough
    obtain ⟨br₁, decoded, left, sound₁⟩ := huff_decode_code clen here code br _ sound ahead
    obtain ⟨after, run, final⟩ := ih fuel br₁ sound₁
      (by rw [length_append, length_singleton]; omega) (by omega) left
    refine ⟨after, ?_, final⟩
    rw [codeLengths, if_pos (by omega)]
    simp only [decoded, if_pos small]
    rw [run, append_assoc, singleton_append]
  | run before others sym width least fill more back kind small here behind ih =>
    rcases fuel with _ | fuel
    · omega
    obtain ⟨large, positive⟩ := run_large _ sym _ _ fill kind
    rw [append_assoc, append_assoc] at ahead
    rw [length_append, length_replicate] at whole enough
    obtain ⟨br₁, decoded, left, sound₁⟩ := huff_decode_code clen here code br _ sound ahead
    obtain ⟨br₂, repeated, left₂, sound₂⟩ := repeat_code_bits br₁ _ sym _ _ fill more kind sound₁ small left
    obtain ⟨after, run, final⟩ := ih fuel br₂ sound₂
      (by rw [length_append, length_replicate]; omega) (by omega) left₂
    refine ⟨after, ?_, final⟩
    rw [codeLengths, if_pos (by omega)]
    simp only [decoded, repeated]
    rw [if_neg (by omega), sound₂.clear, isSome_none, if_neg Bool.false_ne_true, if_neg (by omega), run,
      append_assoc]

theorem dynamic_block_yields (roomy : Roomy host) {t : Tables}
    {lengths symbols : List Bool} (described : LengthBits t.clen [] (t.lit ++ t.dist) lengths)
    (coded : SymbolBits t.lit t.dist tokens symbols) (sound : Sound br)
    (bounded : out.cap ≤ host.sizeMax)
    (ahead : br.bits = lsb 5 (t.lit.length - 257) ++ (lsb 5 (t.dist.length - 1) ++ (lsb 4 t.sent ++
      (t.sentBits ++ (lengths ++ (symbols ++ rest))))))
    (reached : Reaches out.data tokens) (small : (expandFrom out.data tokens).length ≤ manGzMaxOutput) :
    Yields host (inflateDynamicBlock host br out) (expandFrom out.data tokens) rest := by
  have litCount := t.lit_count
  have distCount := t.dist_count
  obtain ⟨hlit, behind₁, sound₁⟩ := bit_getn_bits 5 _ br _ sound (by omega) ahead
  obtain ⟨hdist, behind₂, sound₂⟩ := bit_getn_bits 5 _ _ _ sound₁ (by omega) behind₁
  obtain ⟨hclen, behind₃, sound₃⟩ := bit_getn_bits 4 _ _ _ sound₂ t.sent_small behind₂
  have clenSmall : ∀ sym, t.clen.getD sym 0 < 2 ^ 3 := by
    intro sym
    by_cases inside : sym < t.clen.length
    · rw [getD_eq_getElem _ 0 inside]
      exact t.clen_small _ (List.getElem_mem inside)
    · rw [getD_eq_default _ 0 (by omega)]
      decide
  obtain ⟨br₄, clens, behind₄, sound₄⟩ := clen_lengths_bits t.clen (lengthOrder.take (t.sent + 4))
    clenSmall (List.replicate 19 0) _ sound₃ behind₃
  rw [clen_sent_all] at clens
  obtain ⟨br₅, decoded, behind₅, sound₅⟩ := code_lengths_bits t.clen t.clen_code [] (t.lit ++ t.dist) lengths
    described (t.lit.length + t.dist.length) (t.lit.length + t.dist.length + 1) br₄ sound₄
    (by rw [length_append, length_nil, zero_add]) (by rw [length_append]; omega) behind₄
  have yielded := symbols_yield br₅ roomy t.lit_code t.dist_code coded sound₅
    bounded behind₅ reached small
  unfold inflateDynamicBlock
  simp only [hlit, hdist, hclen, sound₃.clear, isSome_none, false_eq_true, if_false]
  rw [show clenOrder = lengthOrder by rfl, clens, show t.lit.length - 257 + 257 = t.lit.length by omega,
    show t.dist.length - 1 + 1 = t.dist.length by omega]
  simp only [sound₄.clear, isSome_none, false_eq_true, if_false, decoded, nil_append]
  rw [take_left, drop_left]
  exact yielded

theorem xor_ones (n : Nat) (small : n < 2 ^ 16) : n ^^^ 0xFFFF = 2 ^ 16 - 1 - n := by
  have flipped := congrArg BitVec.toNat (BitVec.xor_allOnes (x := BitVec.ofNat 16 n))
  rw [BitVec.toNat_xor, BitVec.toNat_not, BitVec.toNat_ofNat, mod_eq_of_lt small, BitVec.toNat_allOnes] at flipped
  exact flipped

theorem halfword_bytes (front back : List UInt8) (n : Nat) (small : n < 2 ^ 16) :
    halfword (front ++ UInt8.ofNat n :: UInt8.ofNat (n / 256) :: back) front.length = n := by
  have low := Nat.two_pow_add_eq_or_of_lt (show n % 256 < 2 ^ 8 by omega) (n / 256)
  unfold halfword
  rw [getD_append_right _ _ _ _ (Nat.le_refl _), getD_append_right _ _ _ _ (Nat.le_add_right _ _), Nat.sub_self,
    Nat.add_sub_cancel_left]
  simp only [getD_cons_zero, getD_cons_succ, UInt8.toNat_ofNat']
  rw [Nat.mod_eq_of_lt (show n / 256 < 2 ^ 8 by omega), Nat.shiftLeft_eq, Nat.mul_comm, Nat.or_comm]
  exact low.symm.trans (by omega)

variable (rest) in
theorem stored_block_yields (roomy : Roomy host) (padding : List Bool) {bytes : List UInt8}
    (short : bytes.length < 2 ^ 16) (sound : Sound br)
    (bounded : out.cap ≤ host.sizeMax) (aligned : padding.length = br.bitcnt)
    (ahead : br.bits = padding ++ (lsb 16 bytes.length ++ (lsb 16 (2 ^ 16 - 1 - bytes.length) ++ (bits bytes ++ rest))))
    (small : (out.data ++ bytes).length ≤ manGzMaxOutput) :
    Yields host (inflateStoredBlock host br out) (out.data ++ bytes) rest := by
  obtain ⟨cap, emitted, capBounded⟩ := emit_bytes_room roomy bytes { bitAlign br with pos := br.pos + 4 } out bounded small
  have tail := (append_inj ahead (by rw [lsb_length, aligned])).2
  rw [← bits_halfword, ← bits_halfword, ← append_assoc, ← append_assoc, ← bits_append, ← bits_append] at tail
  obtain ⟨back, shape, backBits⟩ := bits_front _ _ rest tail
  have split := take_append_drop br.pos br.data
  rw [shape] at split
  have here : (br.data.take br.pos).length = br.pos := by
    apply length_take_of_le
    apply Nat.le_of_lt
    apply Nat.lt_of_not_le
    intro past
    rw [drop_eq_nil_of_le past] at shape
    cases shape
  have length := congrArg List.length split
  simp only [length_append, length_cons, length_nil, here] at length
  have blen : halfword br.data br.pos = bytes.length := by
    have word := halfword_bytes (br.data.take br.pos) (UInt8.ofNat (2 ^ 16 - 1 - bytes.length) ::
      UInt8.ofNat ((2 ^ 16 - 1 - bytes.length) / 256) :: (bytes ++ back)) bytes.length short
    rw [here] at word
    rw [← split]
    exact word
  have nlen : halfword br.data (br.pos + 2) = 2 ^ 16 - 1 - bytes.length := by
    have word := halfword_bytes (br.data.take br.pos ++ [UInt8.ofNat bytes.length, UInt8.ofNat (bytes.length / 256)])
      (bytes ++ back) (2 ^ 16 - 1 - bytes.length) (by omega)
    rw [length_append, here, append_assoc] at word
    rw [← split]
    exact word
  have payload : br.data.drop (br.pos + 4) = bytes ++ back := by
    rw [← drop_drop, shape]
    rfl
  refine ⟨{ bitAlign br with pos := br.pos + 4 + bytes.length }, cap, ?_, ?_, ⟨sound.clear, show 0 < 8 by decide⟩,
    capBounded⟩
  · have header : ¬br.pos + 4 > br.data.length := by omega
    have body : ¬br.pos + 4 + bytes.length > br.data.length := by omega
    simp only [inflateStoredBlock, bitAlign, blen, nlen, xor_ones _ short, payload, take_left, if_neg header, if_neg body,
      ne_eq, not_true_eq_false, if_false] at emitted ⊢
    rw [emitted]
  · rw [BitReader.bits]
    show lsb 0 0 ++ bits (br.data.drop (br.pos + 4 + bytes.length)) = rest
    rw [← drop_drop, payload, drop_left, lsb, nil_append, backBits]

theorem block_yields (roomy : Roomy host) {start : Nat} {block : List Bool}
    (coded : BlockBits start tokens block) {out : Gzbuf} (sound : Sound br)
    (bounded : out.cap ≤ host.sizeMax) (ahead : br.bits = block ++ rest) (aligned : (start + br.bits.length) % 8 = 0)
    (reached : Reaches out.data tokens) (small : (expandFrom out.data tokens).length ≤ manGzMaxOutput) :
    (bitGetn br 2).2.errmsg = none ∧
      Yields host (inflateBlock host (bitGetn br 2).1 (bitGetn br 2).2 out) (expandFrom out.data tokens) rest := by
  cases coded with
  | stored padding bytes short few boundary =>
    rw [append_assoc] at ahead
    obtain ⟨kind, behind, sound'⟩ := bit_getn_bits 2 0 br _ sound (by decide) ahead
    refine ⟨sound'.clear, ?_⟩
    rw [expand_from_literals] at small ⊢
    rw [kind, inflateBlock, if_pos rfl]
    refine stored_block_yields _ rest roomy padding short sound' bounded ?_ ?_ small
    · have partly := sound'.partly
      have length := congrArg List.length behind
      rw [← left_bits, BitReader.left] at length
      rw [ahead, length_append, ← behind, lsb_length, ← left_bits, BitReader.left] at aligned
      omega
    · rw [behind]
      simp only [append_assoc]
  | fixed tokens symbols coded =>
    rw [append_assoc] at ahead
    obtain ⟨kind, behind, sound'⟩ := bit_getn_bits 2 1 br _ sound (by decide) ahead
    refine ⟨sound'.clear, ?_⟩
    rw [kind, inflateBlock, if_neg (by decide), if_pos rfl]
    obtain ⟨same, ⟨litShort, litRoom⟩, ⟨distShort, distRoom⟩, _⟩ := fixed_codes
    exact symbols_yield _ roomy ⟨litShort, litRoom⟩
      ⟨distShort, distRoom⟩ (same ▸ fixed_symbols coded) sound' bounded behind reached small
  | dynamic t tokens lengths symbols described coded =>
    simp only [append_assoc] at ahead
    obtain ⟨kind, behind, sound'⟩ := bit_getn_bits 2 2 br _ sound (by decide) ahead
    refine ⟨sound'.clear, ?_⟩
    rw [kind, inflateBlock, if_neg (by decide), if_neg (by decide), if_pos rfl]
    exact dynamic_block_yields _ roomy described coded sound' bounded behind
      reached small

theorem blocks_yield (roomy : Roomy host) (start : Nat) (stream : List Bool)
    (coded : StreamBits start tokens stream) (fuel : Nat) (br : BitReader) (out : Gzbuf) (enough : stream.length < fuel)
    (sound : Sound br) (bounded : out.cap ≤ host.sizeMax) (ahead : br.bits = stream ++ rest)
    (aligned : (start + br.bits.length) % 8 = 0) (reached : Reaches out.data tokens)
    (small : (expandFrom out.data tokens).length ≤ manGzMaxOutput) :
    Yields host (inflateBlocks host fuel br out) (expandFrom out.data tokens) rest := by
  induction coded generalizing fuel br out with
  | last start tokens block coded =>
    rcases fuel with _ | fuel
    · omega
    rw [cons_append] at ahead
    obtain ⟨final, behind, sound'⟩ := bit_getn_bits 1 1 br (block ++ rest) sound (by decide) ahead
    rw [ahead, length_cons, ← behind] at aligned
    obtain ⟨clear, yielded⟩ := block_yields _ roomy coded sound' bounded behind
      (by rw [← aligned]; congr 1; omega) reached small
    obtain ⟨after, cap, run, finished⟩ := yielded
    refine ⟨after, cap, ?_, finished⟩
    simp only [inflateBlocks, final, clear, isSome_none, false_eq_true, if_false, run]
    rfl
  | more start tokens others block stream coded behind ih =>
    rcases fuel with _ | fuel
    · omega
    rw [cons_append, append_assoc] at ahead
    rw [length_cons, length_append] at enough
    rw [expand_from_append] at small ⊢
    rw [reaches_append] at reached
    have grown := expand_from_grows (expandFrom out.data tokens) others
    obtain ⟨final, left, sound'⟩ := bit_getn_bits 1 0 br (block ++ (stream ++ rest)) sound (by decide) ahead
    rw [ahead, length_cons, ← left] at aligned
    obtain ⟨clear, after, cap, run, left', sound'', capBounded⟩ := block_yields _ roomy
      coded sound' bounded left (by rw [← aligned]; congr 1; omega) reached.1 (by omega)
    have yielded := ih fuel after ⟨_, cap⟩ (by omega) sound'' capBounded left'
      (by rw [← aligned, left, left']; simp only [length_append]; congr 1; omega) reached.2 small
    simp only [inflateBlocks, final, clear, isSome_none, false_eq_true, if_false, run, if_true]
    exact yielded

theorem inflate_stream_expands (host : Host) (roomy : Roomy host) (data : List UInt8) (pos : Nat) (tokens : List Token)
    (stream rest : List Bool) (coded : StreamBits 0 tokens stream) (ahead : bits (data.drop pos) = stream ++ rest)
    (reached : Reaches [] tokens) (small : (expand tokens).length ≤ manGzMaxOutput) :
    ∃ br cap, inflateStream host ⟨data, pos, 0, 0, none⟩ ⟨[], 0⟩ = (true, br, ⟨expand tokens, cap⟩) ∧
      br.errmsg = none ∧ br.bits = rest := by
  have start : (BitReader.mk data pos 0 0 none).bits = stream ++ rest := ahead
  have enough : stream.length < (BitReader.mk data pos 0 0 none).left + 1 := by
    rw [left_bits, start, length_append]
    omega
  have aligned : (0 + (BitReader.mk data pos 0 0 none).bits.length) % 8 = 0 := by
    rw [start, ← ahead, bits_length]
    omega
  obtain ⟨br, cap, run, left, sound, _⟩ := blocks_yield roomy 0 stream coded _
    ⟨data, pos, 0, 0, none⟩ ⟨[], 0⟩ enough ⟨rfl, show 0 < 8 by decide⟩ (zero_le _) start aligned reached small
  exact ⟨br, cap, run, sound.clear, left⟩

theorem inflate_stream_expands_across :
    ∃ br cap, inflateStream ⟨2 ^ 64 - 1, fun _ => true⟩
        ⟨[0x00, 0x02, 0x00, 0xfd, 0xff, 0x61, 0x62, 0x03, 0x43, 0x00], 0, 0, 0, none⟩ ⟨[], 0⟩ =
        (true, br, ⟨[0x61, 0x62, 0x61, 0x62, 0x61, 0x62, 0x61], cap⟩) ∧
      br.errmsg = none ∧ br.bits = [false, false] :=
  inflate_stream_expands _ ⟨by decide, fun _ _ => rfl⟩
    _ 0 _ _ _
    (.more 0 [.literal 0x61, .literal 0x62] [.copy 5 2] _ _
      (.stored (List.replicate 5 false) [0x61, 0x62] (by decide) (by decide) (by decide))
      (.last _ [.copy 5 2] _ (.fixed [.copy 5 2] _ (.token (.copy 5 2) [] _ _
        (.copy 2 0 1 0 (by decide) (by decide +kernel) (by decide) (by decide) (by decide +kernel) (by decide))
        (.ended (by decide +kernel))))))
    (by decide +kernel) (by simp [Reaches]) (by decide +kernel)

end Spicule.Gunzip

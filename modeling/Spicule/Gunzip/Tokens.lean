import Spicule.Gunzip.Huffman
import Spicule.Lib.Deflate

namespace Spicule.Gunzip
open List Bits Canonical Deflate

def fixedLitlen : List Nat :=
  List.replicate 144 8 ++ List.replicate 112 9 ++ List.replicate 24 7 ++ List.replicate 8 8

def fixedDistlen : List Nat := List.replicate 30 5

def lenBase : List Nat :=
  [3, 4, 5, 6, 7, 8, 9, 10, 11, 13, 15, 17, 19, 23, 27, 31, 35, 43, 51, 59, 67, 83, 99, 115, 131, 163, 195, 227, 258]

def lenExtra : List Nat := [0, 0, 0, 0, 0, 0, 0, 0, 1, 1, 1, 1, 2, 2, 2, 2, 3, 3, 3, 3, 4, 4, 4, 4, 5, 5, 5, 5, 0]

def distBase : List Nat :=
  [1, 2, 3, 4, 5, 7, 9, 13, 17, 25, 33, 49, 65, 97, 129, 193, 257, 385, 513, 769, 1025, 1537, 2049, 3073, 4097, 6145,
    8193, 12289, 16385, 24577]

def distExtra : List Nat :=
  [0, 0, 0, 0, 1, 1, 2, 2, 3, 3, 4, 4, 5, 5, 6, 6, 7, 7, 8, 8, 9, 9, 10, 10, 11, 11, 12, 12, 13, 13]

def clenOrder : List Nat := [16, 17, 18, 0, 8, 7, 9, 6, 10, 5, 11, 4, 12, 3, 13, 2, 14, 1, 15]

-- Every turn of a loop takes a bit or ends with an error, so the bits left bound the turns.
def BitReader.left (br : BitReader) : Nat := br.bitcnt + 8 * (br.data.length - br.pos)

def copyBytes (host : Host) (distance : Nat) : Nat → BitReader → Gzbuf → Bool × BitReader × Gzbuf
  | 0, br, out => (true, br, out)
  | length + 1, br, out =>
    match gzEmit host br out (out.data.getD (out.data.length - distance) 0) with
    | (false, br, out) => (false, br, out)
    | (true, br, out) => copyBytes host distance length br out

def inflateCopy (host : Host) (dist : Huff) (row : Nat) (br : BitReader) (out : Gzbuf) : Bool × BitReader × Gzbuf :=
  let (extra, br) := bitGetn br (lenExtra.getD row 0)
  let length := lenBase.getD row 0 + extra
  match huffDecode br dist with
  | (none, br) => (false, br, out)
  | (some dsym, br) =>
    if dsym > 29 then (false, br.error "invalid distance code in DEFLATE stream", out)
    else
      let (extra, br) := bitGetn br (distExtra.getD dsym 0)
      let distance := distBase.getD dsym 0 + extra
      if br.errmsg.isSome then (false, br, out)
      else if distance > out.data.length then
        (false, br.error "back-reference distance points before start of output", out)
      else copyBytes host distance length br out

def inflateSymbol (host : Host) (lit dist : Huff) (br : BitReader) (out : Gzbuf) : Option Bool × BitReader × Gzbuf :=
  match huffDecode br lit with
  | (none, br) => (some false, br, out)
  | (some sym, br) =>
    if sym < 256 then
      match gzEmit host br out (UInt8.ofNat sym) with
      | (false, br, out) => (some false, br, out)
      | (true, br, out) => (none, br, out)
    else if sym = 256 then (some true, br, out)
    else if sym ≤ 285 then
      match inflateCopy host dist (sym - 257) br out with
      | (false, br, out) => (some false, br, out)
      | (true, br, out) => (none, br, out)
    else (some false, br.error "invalid length code in DEFLATE stream", out)

def inflateDecodeBlock (host : Host) (lit dist : Huff) : Nat → BitReader → Gzbuf → Bool × BitReader × Gzbuf
  | 0, br, out => (false, br, out)
  | fuel + 1, br, out =>
    match inflateSymbol host lit dist br out with
    | (some returned, br, out) => (returned, br, out)
    | (none, br, out) => inflateDecodeBlock host lit dist fuel br out

def clenLengths : List Nat → BitReader → List Nat → List Nat × BitReader
  | [], br, lengths => (lengths, br)
  | sym :: order, br, lengths =>
    let (len, br) := bitGetn br 3
    clenLengths order br (lengths.set sym len)

def repeatCode (sym : Nat) (lengths : List Nat) (br : BitReader) : Option (Nat × Nat) × BitReader :=
  if sym = 16 then
    match lengths.getLast? with
    | none => (none, br.error "repeat code with no previous code length")
    | some previous =>
      let (extra, br) := bitGetn br 2
      (some (extra + 3, previous), br)
  else if sym = 17 then
    let (extra, br) := bitGetn br 3
    (some (extra + 3, 0), br)
  else if sym = 18 then
    let (extra, br) := bitGetn br 7
    (some (extra + 11, 0), br)
  else (none, br.error "invalid code-length symbol in DEFLATE stream")

def codeLengths (clenHuff : Huff) (total : Nat) : Nat → BitReader → List Nat → Option (List Nat) × BitReader
  | 0, br, _ => (none, br)
  | fuel + 1, br, lengths =>
    if lengths.length < total then
      match huffDecode br clenHuff with
      | (none, br) => (none, br)
      | (some sym, br) =>
        if sym < 16 then codeLengths clenHuff total fuel br (lengths ++ [sym])
        else
          match repeatCode sym lengths br with
          | (none, br) => (none, br)
          | (some (times, fill), br) =>
            if br.errmsg.isSome then (none, br)
            else if lengths.length + times > total then
              (none, br.error "code-length repeat overruns its own table")
            else codeLengths clenHuff total fuel br (lengths ++ List.replicate times fill)
    else (some lengths, br)

def inflateDynamicBlock (host : Host) (br : BitReader) (out : Gzbuf) : Bool × BitReader × Gzbuf :=
  let (hlit, br) := bitGetn br 5
  let hlit := hlit + 257
  let (hdist, br) := bitGetn br 5
  let hdist := hdist + 1
  let (hclen, br) := bitGetn br 4
  let hclen := hclen + 4
  if br.errmsg.isSome then (false, br, out)
  else
    let (clens, br) := clenLengths (clenOrder.take hclen) br (List.replicate 19 0)
    if br.errmsg.isSome then (false, br, out)
    else
      match codeLengths (huffBuild clens) (hlit + hdist) (hlit + hdist + 1) br [] with
      | (none, br) => (false, br, out)
      | (some lengths, br) =>
        inflateDecodeBlock host (huffBuild (lengths.take hlit)) (huffBuild (lengths.drop hlit)) (br.left + 1) br out

def emitBytes (host : Host) : List UInt8 → BitReader → Gzbuf → Bool × BitReader × Gzbuf
  | [], br, out => (true, br, out)
  | byte :: bytes, br, out =>
    match gzEmit host br out byte with
    | (false, br, out) => (false, br, out)
    | (true, br, out) => emitBytes host bytes br out

def halfword (data : List UInt8) (i : Nat) : Nat := (data.getD i 0).toNat ||| (data.getD (i + 1) 0).toNat <<< 8

def inflateStoredBlock (host : Host) (br : BitReader) (out : Gzbuf) : Bool × BitReader × Gzbuf :=
  let br := bitAlign br
  if br.pos + 4 > br.data.length then (false, br.error "truncated stored-block header", out)
  else
    let blen := halfword br.data br.pos
    let nlen := halfword br.data (br.pos + 2)
    let br := { br with pos := br.pos + 4 }
    if blen ^^^ 0xFFFF ≠ nlen then (false, br.error "stored-block LEN/NLEN mismatch", out)
    else if br.pos + blen > br.data.length then (false, br.error "truncated stored-block data", out)
    else
      match emitBytes host ((br.data.drop br.pos).take blen) br out with
      | (false, br, out) => (false, br, out)
      | (true, br, out) => (true, { br with pos := br.pos + blen }, out)

def inflateBlock (host : Host) (btype : Nat) (br : BitReader) (out : Gzbuf) : Bool × BitReader × Gzbuf :=
  if btype = 0 then inflateStoredBlock host br out
  else if btype = 1 then
    inflateDecodeBlock host (huffBuild fixedLitlen) (huffBuild fixedDistlen) (br.left + 1) br out
  else if btype = 2 then inflateDynamicBlock host br out
  else (false, br.error "invalid DEFLATE block type (reserved value 3)", out)

def inflateBlocks (host : Host) : Nat → BitReader → Gzbuf → Bool × BitReader × Gzbuf
  | 0, br, out => (false, br, out)
  | fuel + 1, br, out =>
    let (bfinal, br) := bitGetn br 1
    let (btype, br) := bitGetn br 2
    if br.errmsg.isSome then (false, br, out)
    else
      match inflateBlock host btype br out with
      | (false, br, out) => (false, br, out)
      | (true, br, out) => if bfinal = 0 then inflateBlocks host fuel br out else (true, br, out)

def inflateStream (host : Host) (br : BitReader) (out : Gzbuf) : Bool × BitReader × Gzbuf :=
  inflateBlocks host (br.left + 1) br out

structure Roomy (host : Host) : Prop where
  large : manGzMaxOutput ≤ host.sizeMax
  granted : ∀ n, n ≤ host.sizeMax → host.memory n = true

def Yields (host : Host) (result : Bool × BitReader × Gzbuf) (data : List UInt8) (rest : List Bool) : Prop :=
  ∃ after cap, result = (true, after, ⟨data, cap⟩) ∧ after.bits = rest ∧ Sound after ∧ cap ≤ host.sizeMax

theorem doubled_bounded {maximum minimum : Nat} (fuel capacity : Nat) (small : minimum ≤ maximum) (start : capacity ≤ maximum) :
    doubled maximum minimum fuel capacity ≤ maximum := by
  induction fuel generalizing capacity with
  | zero => exact start
  | succ fuel ih =>
    unfold doubled
    split
    · split
      · exact small
      · exact ih (capacity * 2) (by omega)
    · exact start

theorem array_capacity_bounded {sizeMax current : Nat} (used : Nat) (large : 256 ≤ sizeMax) (fits : used + 1 ≤ sizeMax)
    (bounded : current ≤ sizeMax) :
    ∃ capacity, arrayCapacity sizeMax current used 1 256 1 = some capacity ∧ capacity ≤ sizeMax := by
  unfold arrayCapacity
  rw [if_neg (by omega), Nat.div_one, if_neg (by omega)]
  refine ⟨_, rfl, doubled_bounded _ _ fits ?_⟩
  split
  · exact large
  · exact bounded

variable {host : Host} (br : BitReader) (out : Gzbuf)
theorem gz_emit_room (roomy : Roomy host) (c : UInt8)
    (bounded : out.cap ≤ host.sizeMax) (small : out.data.length < manGzMaxOutput) :
    ∃ cap, gzEmit host br out c = (true, br, ⟨out.data ++ [c], cap⟩) ∧ cap ≤ host.sizeMax := by
  have large := roomy.large
  have limit : manGzMaxOutput = 67108864 := rfl
  unfold gzEmit gzbufAppendByte
  rw [if_neg (by omega)]
  by_cases full : out.data.length + 1 > out.cap
  · obtain ⟨capacity, found, capBounded⟩ := array_capacity_bounded out.data.length (by omega) (by omega) bounded
    simp only [if_pos full, found, roomy.granted capacity capBounded, if_true]
    exact ⟨capacity, rfl, capBounded⟩
  · simp only [if_neg full]
    exact ⟨out.cap, rfl, bounded⟩

theorem emit_bytes_room (roomy : Roomy host) (bytes : List UInt8) (br : BitReader) (out : Gzbuf)
    (bounded : out.cap ≤ host.sizeMax) (small : (out.data ++ bytes).length ≤ manGzMaxOutput) :
    ∃ cap, emitBytes host bytes br out = (true, br, ⟨out.data ++ bytes, cap⟩) ∧ cap ≤ host.sizeMax := by
  induction bytes generalizing out with
  | nil => exact ⟨out.cap, by rw [emitBytes, append_nil], bounded⟩
  | cons byte bytes ih =>
    rw [length_append, length_cons] at small
    obtain ⟨cap, emitted, capBounded⟩ := gz_emit_room br out roomy byte bounded (by omega)
    obtain ⟨cap', rest, final⟩ := ih ⟨out.data ++ [byte], cap⟩ capBounded
      (by simp only [length_append, length_singleton]; omega)
    refine ⟨cap', ?_, final⟩
    rw [emitBytes, emitted]
    simp only [rest, append_assoc, singleton_append]

variable {br}
theorem copy_bytes_room (roomy : Roomy host) {distance length : Nat}
    (bounded : out.cap ≤ host.sizeMax) (small : out.data.length + length ≤ manGzMaxOutput) (back : 0 < distance)
    (inside : distance ≤ out.data.length) :
    ∃ cap, copyBytes host distance length br out = (true, br, ⟨out.data ++ copied out.data distance length, cap⟩) ∧
      cap ≤ host.sizeMax := by
  induction length generalizing out with
  | zero => exact ⟨out.cap, by rw [copyBytes, copied, range_zero, map_nil, append_nil], bounded⟩
  | succ length ih =>
    obtain ⟨cap, emitted, capBounded⟩ :=
      gz_emit_room br out roomy (out.data.getD (out.data.length - distance) 0) bounded (by omega)
    obtain ⟨cap', rest, final⟩ := ih ⟨out.data ++ [out.data.getD (out.data.length - distance) 0], cap⟩ capBounded
      (by simp only [length_append, length_singleton]; omega)
      (by simp only [length_append, length_singleton]; omega)
    refine ⟨cap', ?_, final⟩
    rw [copyBytes, emitted]
    simp only [rest, copied_succ out.data back inside]

theorem length_rows {row : Nat} (inside : row < 29) :
    lenBase.getD row 0 = lengthBase row ∧ lenExtra.getD row 0 = lengthExtra row := by
  revert row
  decide

theorem distance_rows {row : Nat} (inside : row < 30) :
    distBase.getD row 0 = distanceBase row ∧ distExtra.getD row 0 = distanceExtra row := by
  revert row
  decide

theorem inflate_copy_yields (roomy : Roomy host) {dist : List Nat} (code : PrefixCode dist maxbits)
    {row extra drow dextra : Nat} (inside : row < 29) (fits : extra < 2 ^ lengthExtra row) (dinside : drow < 30)
    (dcoded : Coded dist drow) (dfits : dextra < 2 ^ distanceExtra drow) {br : BitReader} {out : Gzbuf}
    {rest : List Bool} (sound : Sound br) (bounded : out.cap ≤ host.sizeMax)
    (ahead : br.bits = lsb (lengthExtra row) extra ++ (codeBits dist drow ++ (lsb (distanceExtra drow) dextra ++ rest)))
    (reached : 0 < distanceBase drow + dextra ∧ distanceBase drow + dextra ≤ out.data.length)
    (small : out.data.length + (lengthBase row + extra) ≤ manGzMaxOutput) :
    Yields host (inflateCopy host (huffBuild dist) row br out)
      (out.data ++ copied out.data (distanceBase drow + dextra) (lengthBase row + extra)) rest := by
  obtain ⟨base, width⟩ := length_rows inside
  obtain ⟨dbase, dwidth⟩ := distance_rows dinside
  obtain ⟨value, behind, sound₁⟩ := bit_getn_bits _ extra br _ sound fits ahead
  obtain ⟨br₂, decoded, behind₂, sound₂⟩ := huff_decode_code dist dcoded code _ _ sound₁ behind
  obtain ⟨dvalue, behind₃, sound₃⟩ := bit_getn_bits _ dextra br₂ _ sound₂ dfits behind₂
  obtain ⟨cap, copied, capBounded⟩ := copy_bytes_room out roomy
    bounded small reached.1 reached.2
  refine ⟨(bitGetn br₂ (distanceExtra drow)).2, cap, ?_, behind₃, sound₃, capBounded⟩
  unfold inflateCopy
  simp only [base, width, value, decoded]
  rw [if_neg (by omega)]
  simp only [dbase, dwidth, dvalue, sound₃.clear, Option.isSome_none, Bool.false_eq_true, if_false]
  rw [if_neg (by omega), copied]

theorem decode_block_yields (roomy : Roomy host) (lit dist : List Nat) (litCode : PrefixCode lit maxbits)
    (distCode : PrefixCode dist maxbits) (tokens : List Token) (block : List Bool)
    (coded : SymbolBits lit dist tokens block) (fuel : Nat) (br : BitReader) (out : Gzbuf) (rest : List Bool)
    (enough : tokens.length < fuel) (sound : Sound br) (bounded : out.cap ≤ host.sizeMax)
    (ahead : br.bits = block ++ rest) (reached : Reaches out.data tokens)
    (small : (expandFrom out.data tokens).length ≤ manGzMaxOutput) :
    Yields host (inflateDecodeBlock host (huffBuild lit) (huffBuild dist) fuel br out) (expandFrom out.data tokens) rest := by
  induction coded generalizing fuel br out with
  | ended end_coded =>
    rcases fuel with _ | fuel
    · omega
    obtain ⟨after, decoded, behind, sound'⟩ := huff_decode_code lit end_coded litCode br rest sound ahead
    refine ⟨after, out.cap, ?_, behind, sound', bounded⟩
    simp only [inflateDecodeBlock, inflateSymbol, decoded]
    rfl
  | token first others front back here behind ih =>
    rcases fuel with _ | fuel
    · omega
    rw [append_assoc] at ahead
    rw [length_cons] at enough
    have grown := expand_from_grows (first.apply out.data) others
    cases here with
    | literal byte lit_coded =>
      obtain ⟨after, decoded, left, sound'⟩ := huff_decode_code lit lit_coded litCode br _ sound ahead
      simp only [expandFrom, foldl_cons, Token.apply, length_append, length_singleton] at small grown
      obtain ⟨cap, emitted, capBounded⟩ := gz_emit_room after out roomy byte bounded (by omega)
      have yielded := ih fuel after ⟨out.data ++ [byte], cap⟩ (by omega) sound' capBounded left reached small
      have same : UInt8.ofNat byte.toNat = byte := UInt8.ofNat_toNat
      simp only [inflateDecodeBlock, inflateSymbol, decoded, if_pos byte.toNat_lt, same, emitted]
      exact yielded
    | copy row extra drow dextra inside lit_coded fits dinside dcoded dfits =>
      rw [append_assoc, append_assoc, append_assoc] at ahead
      obtain ⟨after, decoded, left, sound'⟩ := huff_decode_code lit lit_coded litCode br _ sound ahead
      simp only [expandFrom, foldl_cons, Token.apply, length_append, copied_length] at small grown
      obtain ⟨after', cap, copied, left', sound'', capBounded⟩ := inflate_copy_yields roomy distCode
        inside fits dinside dcoded dfits sound' bounded left reached.1 (by omega)
      have yielded := ih fuel after' ⟨_, cap⟩ (by omega) sound'' capBounded left' reached.2 small
      simp only [inflateDecodeBlock, inflateSymbol, decoded]
      rw [if_neg (by omega), if_neg (by omega), if_pos (by omega), Nat.add_sub_cancel_left, copied]
      exact yielded

end Spicule.Gunzip

import Mathlib.Data.Nat.Digits.Lemmas
import Overhear.Location.Tag

/-! Location tags as bytes. Six words of eight bytes each stand for a tag, every 48 bytes are those of one tag,
and all bits of its numbers are kept, whatever they stand for. -/
namespace Overhear

@[simp] theorem length_wordBytes (word : UInt64) : (wordBytes word).length = 8 := by simp [wordBytes]

theorem ofDigits_range (count value : Nat) :
    Nat.ofDigits 256 ((List.range count).map fun place => value / 256 ^ place % 256) =
      value % 256 ^ count := by
  induction count generalizing value with
  | zero => simp [Nat.mod_one]
  | succ count ih =>
    rw [List.range_succ_eq_map, List.map_cons, List.map_map, Nat.ofDigits_cons, Nat.pow_zero, Nat.div_one,
      Nat.pow_succ', Nat.mod_mul, ← ih (value / 256)]
    simp only [Function.comp_def, Nat.succ_eq_add_one, Nat.pow_succ', Nat.div_div_eq_div_mul]

/-- The bytes of a word are its digits to base 256, the last digit first. -/
theorem wordBytes_eq (word : UInt64) :
    wordBytes word = (List.range 8).map fun place => UInt8.ofNat (word.toNat / 256 ^ place) := by
  refine List.map_congr_left fun place member => UInt8.toNat_inj.mp ?_
  have below : 8 * place < 64 := by have := List.mem_range.mp member; omega
  have shift : (8 * place).toUInt64.toNat % 64 = 8 * place := by simp [Nat.mod_eq_of_lt below]
  rw [UInt64.toNat_toUInt8, UInt64.toNat_shiftRight, shift, Nat.shiftRight_eq_div_pow, Nat.pow_mul]
  exact UInt8.toNat_ofNat'.symm

theorem ofDigits_wordBytes (word : UInt64) :
    Nat.ofDigits 256 ((wordBytes word).map UInt8.toNat) = word.toNat := by
  have digits : (wordBytes word).map UInt8.toNat =
      (List.range 8).map fun place => word.toNat / 256 ^ place % 256 := by
    rw [wordBytes_eq, List.map_map]
    rfl
  rw [digits, ofDigits_range]
  exact Nat.mod_eq_of_lt word.toNat_lt

theorem lt_of_mem_digits {bytes : List UInt8} : ∀ digit ∈ bytes.map UInt8.toNat, digit < 256 := by
  intro digit member
  obtain ⟨byte, -, rfl⟩ := List.mem_map.mp member
  exact byte.toNat_lt

theorem toNat_wordOfBytes {bytes : List UInt8} (short : bytes.length ≤ 8) :
    (wordOfBytes bytes).toNat = Nat.ofDigits 256 (bytes.map UInt8.toNat) := by
  induction bytes with
  | nil => rfl
  | cons byte rest ih =>
    rw [List.length_cons] at short
    have bound : (wordOfBytes rest).toNat < 256 ^ 7 := by
      rw [ih (Nat.le_of_succ_le short)]
      refine Nat.lt_of_lt_of_le (Nat.ofDigits_lt_base_pow_length (by decide) lt_of_mem_digits) ?_
      rw [List.length_map]
      exact Nat.pow_le_pow_right (by decide) (Nat.le_of_succ_le_succ short)
    -- The shifted word leaves room for a byte, so that the two do not overlap.
    have shifted : (wordOfBytes rest <<< 8).toNat = 2 ^ 8 * (wordOfBytes rest).toNat := by
      have room : 2 ^ 8 * (wordOfBytes rest).toNat < 2 ^ 64 := by omega
      rw [UInt64.toNat_shiftLeft, Nat.shiftLeft_eq, Nat.mul_comm]
      exact Nat.mod_eq_of_lt room
    rw [wordOfBytes, UInt64.toNat_or, UInt8.toNat_toUInt64, shifted, Nat.or_comm,
      ← Nat.two_pow_add_eq_or_of_lt byte.toNat_lt, ih (Nat.le_of_succ_le short), List.map_cons,
      Nat.ofDigits_cons, Nat.add_comm]

theorem wordOfBytes_wordBytes (word : UInt64) : wordOfBytes (wordBytes word) = word := by
  apply UInt64.toNat_inj.mp
  rw [toNat_wordOfBytes (length_wordBytes word).le, ofDigits_wordBytes]

theorem wordBytes_wordOfBytes {bytes : List UInt8} (whole : bytes.length = 8) :
    wordBytes (wordOfBytes bytes) = bytes := by
  refine List.map_injective_iff.mpr (fun _ _ => UInt8.toNat_inj.mp)
    (Nat.ofDigits_inj_of_len_eq (by decide : 1 < 256) (by simp [whole]) lt_of_mem_digits lt_of_mem_digits ?_)
  rw [ofDigits_wordBytes, toNat_wordOfBytes whole.le]

/-- A way to write values in `size` bytes each and to read them off the front of a byte list. Nothing is lost
either way: any bytes that are enough start with those of a value, and fewer are refused. -/
structure Lossless {α : Type} (size : Nat) (write : α → List UInt8)
    (read : List UInt8 → Except TagError (α × List UInt8)) : Prop where
  length : ∀ value, (write value).length = size
  back : ∀ value rest, read (write value ++ rest) = .ok (value, rest)
  onto : ∀ bytes, size ≤ bytes.length → ∃ value rest, bytes = write value ++ rest
  short : ∀ bytes, bytes.length < size → read bytes = .error .truncated

theorem lossless_word : Lossless 8 wordBytes takeWord where
  length := length_wordBytes
  back word rest := by simp [takeWord, wordOfBytes_wordBytes]
  onto bytes enough := by
    refine ⟨wordOfBytes (bytes.take 8), bytes.drop 8, ?_⟩
    rw [wordBytes_wordOfBytes (List.length_take_of_le enough), List.take_append_drop]
  short bytes short := if_pos short

/-- One value after another makes a third. -/
theorem Lossless.both {α β γ : Type} {size more : Nat} {write : α → List UInt8} {writeMore : β → List UInt8}
    {writeBoth : γ → List UInt8} {read : List UInt8 → Except TagError (α × List UInt8)}
    {readMore : List UInt8 → Except TagError (β × List UInt8)} (make : α → β → γ)
    (first : Lossless size write read) (second : Lossless more writeMore readMore)
    (made : ∀ both, ∃ one other, both = make one other)
    (written : ∀ one other, writeBoth (make one other) = write one ++ writeMore other) :
    Lossless (size + more) writeBoth fun bytes => do
      let (one, bytes) ← read bytes
      let (other, bytes) ← readMore bytes
      return (make one other, bytes) where
  length both := by
    obtain ⟨one, other, rfl⟩ := made both
    rw [written, List.length_append, first.length, second.length]
  back both rest := by
    obtain ⟨one, other, rfl⟩ := made both
    rw [written, List.append_assoc, first.back]
    simp only [bind, Except.bind, second.back]
    rfl
  onto bytes enough := by
    obtain ⟨one, middle, rfl⟩ := first.onto bytes (Nat.le_of_add_right_le enough)
    rw [List.length_append, first.length] at enough
    obtain ⟨other, rest, rfl⟩ := second.onto middle (Nat.le_of_add_le_add_left enough)
    exact ⟨make one other, rest, by rw [written, List.append_assoc]⟩
  short bytes short := by
    rcases Nat.lt_or_ge bytes.length size with none | enough
    · rw [first.short bytes none]
      rfl
    · obtain ⟨one, middle, rfl⟩ := first.onto bytes enough
      rw [List.length_append, first.length] at short
      rw [first.back]
      simp only [bind, Except.bind, second.short middle (Nat.lt_of_add_lt_add_left short)]

theorem lossless_coordinate : Lossless 16 Coordinate.encode Coordinate.decode :=
  lossless_word.both (fun latitude longitude => (⟨⟨latitude⟩, ⟨longitude⟩⟩ : Coordinate)) lossless_word
    (fun place => ⟨place.latitude.bits, place.longitude.bits, rfl⟩) fun _ _ => rfl

namespace LocationTag

/-- A tag is read as its parts are, and the bytes after it are left aside. -/
theorem exists_lossless : ∃ read, Lossless 48 encode read ∧ ∀ bytes, decode bytes = Prod.fst <$> read bytes := by
  have hops : Lossless 32 (fun hops : Coordinate × Coordinate => hops.1.encode ++ hops.2.encode) _ :=
    lossless_coordinate.both Prod.mk lossless_coordinate (fun hops => ⟨hops.1, hops.2, rfl⟩) (by simp)
  have whole : Lossless 48 encode _ :=
    hops.both (fun hops destination => ⟨hops.1, hops.2, destination⟩) lossless_coordinate
      (fun tag => ⟨(tag.own, tag.previous), tag.destination, rfl⟩) (by simp [encode])
  refine ⟨_, whole, fun bytes => ?_⟩
  simp only [decode, bind, Except.bind, Functor.map, Except.map]
  cases Coordinate.decode bytes with
  | error _ => rfl
  | ok own =>
    dsimp only
    cases Coordinate.decode own.2 with
    | error _ => rfl
    | ok previous =>
      dsimp only [pure, Except.pure]
      cases Coordinate.decode previous.2 <;> rfl

/-- The six words of a tag, in the order in which they are sent. -/
def words (tag : LocationTag) : List UInt64 :=
  [tag.own.latitude.bits, tag.own.longitude.bits, tag.previous.latitude.bits, tag.previous.longitude.bits,
    tag.destination.latitude.bits, tag.destination.longitude.bits]

theorem encode_eq (tag : LocationTag) : tag.encode = tag.words.flatMap wordBytes := by
  simp [encode, Coordinate.encode, words]

theorem getElem?_flatMap_wordBytes (words : List UInt64) (index : Nat) {place : Nat} (within : place < 8) :
    (words.flatMap wordBytes)[8 * index + place]? =
      words[index]?.map fun word => UInt8.ofNat (word.toNat / 256 ^ place) := by
  induction words generalizing index with
  | nil => rfl
  | cons word others ih =>
    rw [List.flatMap_cons]
    cases index with
    | zero =>
      rw [List.getElem?_append_left (by simpa using within), wordBytes_eq]
      simp [within]
    | succ index =>
      have ahead : 8 * (index + 1) + place = (wordBytes word).length + (8 * index + place) := by
        rw [length_wordBytes]
        omega
      rw [ahead, List.getElem?_append_right (Nat.le_add_right _ _), Nat.add_sub_cancel_left, ih,
        List.getElem?_cons_succ]

/-- A tag is sent as 48 bytes, its six words one after another with the least significant byte first. It is
read back with all its bits, whatever follows it; only fewer bytes are refused, and whatever is read is sent
as the bytes that it was read from. -/
theorem tags_keep_all_bits :
    (∀ tag : LocationTag, tag.encode.length = 48 ∧ ∀ index place, place < 8 →
      tag.encode[8 * index + place]? =
        tag.words[index]?.map fun word => UInt8.ofNat (word.toNat / 256 ^ place)) ∧
    (∀ (tag : LocationTag) (rest : List UInt8), decode (tag.encode ++ rest) = .ok tag) ∧
    (∀ bytes : List UInt8, (∃ error, decode bytes = .error error) ↔ bytes.length < 48) ∧
    ∀ (bytes : List UInt8) (tag : LocationTag), decode bytes = .ok tag → tag.encode = bytes.take 48 := by
  obtain ⟨read, lossless, decode_eq⟩ := exists_lossless
  have decode_append (tag : LocationTag) (rest : List UInt8) : decode (tag.encode ++ rest) = .ok tag := by
    rw [decode_eq, lossless.back]
    rfl
  refine ⟨fun tag => ⟨lossless.length tag, fun index place within => ?_⟩, decode_append, fun bytes => ?_,
    fun bytes tag found => ?_⟩
  · rw [encode_eq, getElem?_flatMap_wordBytes tag.words index within]
  · constructor
    · rintro ⟨error, refused⟩
      by_contra enough
      obtain ⟨tag, rest, rfl⟩ := lossless.onto bytes (Nat.not_lt.mp enough)
      rw [decode_append] at refused
      cases refused
    · intro short
      exact ⟨.truncated, by rw [decode_eq, lossless.short bytes short]; rfl⟩
  · rcases Nat.lt_or_ge bytes.length 48 with short | enough
    · rw [decode_eq, lossless.short bytes short] at found
      cases found
    · obtain ⟨other, rest, rfl⟩ := lossless.onto bytes enough
      obtain rfl := Except.ok.inj ((decode_append other rest).symm.trans found)
      exact (List.take_left' (lossless.length other)).symm

/-- A NaN keeps its payload and a zero its sign, and a byte too many does no harm. -/
theorem tags_keep_all_bits_nan :
    let tag : LocationTag := ⟨⟨⟨0x7FF0000000000001⟩, ⟨0x8000000000000000⟩⟩, .unknown, .unknown⟩
    decode (tag.encode ++ [7]) = .ok tag ∧ tag.encode[0]? = some 1 ∧ tag.encode[8 * 1 + 7]? = some 0x80 ∧
      tag.encode = (tag.encode ++ [7]).take 48 := by
  intro tag
  obtain ⟨sent, read, -, sentBack⟩ := tags_keep_all_bits
  exact ⟨read tag [7], ((sent tag).2 0 0 (by decide)).trans (by decide),
    ((sent tag).2 1 7 (by decide)).trans (by decide), sentBack _ tag (read tag [7])⟩

end LocationTag

end Overhear

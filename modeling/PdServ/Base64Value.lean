import PdServ.Base64
import PdServ.HexValue

/-!
`XmlElement::Attribute::base64`, the form in which `<time>` and, on request, the values
of `<F>` and `<E>` are printed. The loop takes three bytes a round; one or two bytes that
are left over have cases of their own.
-/

namespace PdServ

/-- `base64Chr[index]` -/
def base64Chr (index : Byte) : Byte :=
  (ascii "ABCDEFGHIJKLMNOPQRSTUVWXYZabcdefghijklmnopqrstuvwxyz0123456789+/").getD index.toNat 0

/-- One round of the loop, at `buf[i]`. -/
def base64Chunk (buf : Nat → Byte) (i : Nat) : List Byte :=
  [base64Chr (buf i >>> 2),
    base64Chr (((buf i &&& 0x03) <<< 4) + (buf (i + 1) >>> 4)),
    base64Chr (((buf (i + 1) &&& 0x0f) <<< 2) + (buf (i + 2) >>> 6)),
    base64Chr (buf (i + 2) &&& 0x3f)]

/-- `while (i != len - rem)`, where the rounds left are a third of the difference. -/
def base64Chunks (buf : Nat → Byte) : (rounds i : Nat) → List Byte
  | 0, _ => []
  | rounds + 1, i => base64Chunk buf i ++ base64Chunks buf rounds (i + 3)

/-- The `switch (rem)` behind the loop. -/
def base64Tail (buf : Nat → Byte) (i rem : Nat) : List Byte :=
  if rem = 2 then
    [base64Chr (buf i >>> 2),
      base64Chr (((buf i &&& 0x03) <<< 4) + (buf (i + 1) >>> 4)),
      base64Chr ((buf (i + 1) &&& 0x0f) <<< 2),
      Chr.equals]
  else if rem = 1 then
    [base64Chr (buf i >>> 2),
      base64Chr ((buf i &&& 0x03) <<< 4),
      Chr.equals, Chr.equals]
  else []

/-- `base64(data, len)`; every byte is read at an index below `len`. -/
def base64 (data : List Byte) : List Byte :=
  let len := data.length
  let rem := len % 3
  let buf := fun i => data.getD i 0
  base64Chunks buf ((len - rem) / 3) 0 ++ base64Tail buf (len - rem) rem

/-! ### Bits as numbers -/

theorem base64Chr_eq (index : Byte) : base64Chr index = Base64.alphabet.getD index.toNat 0 := rfl

theorem high_bits (a : Byte) :
    (a >>> 2).toNat = a.toNat / 4 ∧ (a >>> 4).toNat = a.toNat / 16 ∧
      (a >>> 6).toNat = a.toNat / 64 := by
  simp [UInt8.toNat_shiftRight, Nat.shiftRight_eq_div_pow]

theorem low_bits (a : Byte) :
    ((a &&& 0x03) <<< 4).toNat = a.toNat % 4 * 16 ∧ ((a &&& 0x0f) <<< 2).toNat = a.toNat % 16 * 4 ∧
      (a &&& 0x3f).toNat = a.toNat % 64 := by
  have two : a.toNat &&& 3 = a.toNat % 4 := Nat.and_two_pow_sub_one_eq_mod a.toNat 2
  have four : a.toNat &&& 15 = a.toNat % 16 := Nat.and_two_pow_sub_one_eq_mod a.toNat 4
  have six : a.toNat &&& 63 = a.toNat % 64 := Nat.and_two_pow_sub_one_eq_mod a.toNat 6
  simp only [UInt8.toNat_shiftLeft, UInt8.toNat_and, UInt8.reduceToNat, two, four, six,
    Nat.shiftLeft_eq, Nat.reduceMod, Nat.reducePow, and_true]
  -- nothing is shifted out
  omega

/-- The low bits of a byte and the high bits of the next one do not overlap. -/
theorem second_sextet (a b : Byte) :
    (((a &&& 0x03) <<< 4) + (b >>> 4)).toNat = a.toNat % 4 * 16 + b.toNat / 16 := by
  have bound := b.toNat_lt
  rw [UInt8.toNat_add, (low_bits a).1, (high_bits b).2.1]
  omega

theorem third_sextet (b c : Byte) :
    (((b &&& 0x0f) <<< 2) + (c >>> 6)).toNat = b.toNat % 16 * 4 + c.toNat / 64 := by
  have bound := c.toNat_lt
  rw [UInt8.toNat_add, (low_bits b).2.1, (high_bits c).2.2]
  omega

/-- The character of a sextet has its value. -/
theorem value_base64Chr {index : Byte} {n : Nat} (is : index.toNat = n) (small : n < 64) :
    Base64.value (base64Chr index) = some n := by
  rw [base64Chr_eq, is]
  exact Base64.value_getElem n small

theorem base64Chr_ne_pad {index : Byte} (small : index.toNat < 64) :
    base64Chr index ≠ Base64.pad :=
  Base64.getElem_ne_pad _ small

theorem base64Chr_mem {index : Byte} (small : index.toNat < 64) :
    base64Chr index ∈ Base64.alphabet :=
  Base64.getElem_mem _ small

theorem byte_ofNat {n : Nat} {a : Byte} (is : n % 256 = a.toNat) : UInt8.ofNat n = a := by
  rw [← UInt8.toNat_inj, UInt8.toNat_ofNat']
  exact is

/-! ### What a reader gets -/

theorem group_chunk (a b c : Byte) :
    Base64.group (base64Chr (a >>> 2)) (base64Chr (((a &&& 0x03) <<< 4) + (b >>> 4)))
      (base64Chr (((b &&& 0x0f) <<< 2) + (c >>> 6))) (base64Chr (c &&& 0x3f)) = some [a, b, c] := by
  have := a.toNat_lt
  have := b.toNat_lt
  have := c.toNat_lt
  rw [Base64.group, value_base64Chr (high_bits a).1 (by omega),
    value_base64Chr (second_sextet a b) (by omega), value_base64Chr (third_sextet b c) (by omega),
    value_base64Chr (low_bits c).2.2 (by omega)]
  simp only [Option.bind_eq_bind, Option.bind_some, Base64.bytes, List.nil_append, List.cons_append]
  rw [byte_ofNat (a := a) (by omega), byte_ofNat (a := b) (by omega), byte_ofNat (a := c) (by omega)]

theorem padded_two (a b : Byte) :
    Base64.padded (base64Chr (a >>> 2)) (base64Chr (((a &&& 0x03) <<< 4) + (b >>> 4)))
      (base64Chr ((b &&& 0x0f) <<< 2)) = some [a, b] := by
  have := a.toNat_lt
  have := b.toNat_lt
  have small : ((b &&& 0x0f) <<< 2).toNat < 64 := by
    rw [(low_bits b).2.1]
    omega
  rw [Base64.padded, value_base64Chr (high_bits a).1 (by omega),
    value_base64Chr (second_sextet a b) (by omega), value_base64Chr (low_bits b).2.1 (by omega)]
  simp only [Option.bind_eq_bind, Option.bind_some, Base64.bytes, List.nil_append, List.cons_append]
  rw [if_neg (base64Chr_ne_pad small), if_pos (by omega), byte_ofNat (a := a) (by omega), byte_ofNat (a := b) (by omega)]

theorem padded_one (a : Byte) :
    Base64.padded (base64Chr (a >>> 2)) (base64Chr ((a &&& 0x03) <<< 4)) Chr.equals = some [a] := by
  have := a.toNat_lt
  have pads : Chr.equals = Base64.pad := rfl
  rw [Base64.padded, value_base64Chr (high_bits a).1 (by omega),
    value_base64Chr (low_bits a).1 (by omega)]
  simp only [Option.bind_eq_bind, Option.bind_some, Base64.bytes, List.nil_append]
  rw [if_pos pads, if_pos (by omega), byte_ofNat (a := a) (by omega)]

/-! ### The whole text -/

/-- The `count` bytes from `buf[i]` on. -/
def slice (buf : Nat → Byte) (i count : Nat) : List Byte := (List.range' i count).map buf

theorem slice_append (buf : Nat → Byte) (i first second : Nat) :
    slice buf i first ++ slice buf (i + first) second = slice buf i (first + second) := by
  rw [slice, slice, slice, ← List.map_append, List.range'_append_1]

theorem slice_data (data : List Byte) : slice (fun i => data.getD i 0) 0 data.length = data := by
  apply List.ext_getElem
  · simp [slice]
  · intro i _ inside
    simp [slice, inside]

theorem decode_chunks (buf : Nat → Byte) (rounds i : Nat) (rest : List Byte) :
    Base64.decode (base64Chunks buf rounds i ++ rest) =
      (Base64.decode rest).map (slice buf i (3 * rounds) ++ ·) := by
  induction rounds generalizing i with
  | zero =>
      simp [base64Chunks, slice]
  | succ rounds ih =>
      have small : (buf (i + 2) &&& 0x3f).toNat < 64 := by
        rw [(low_bits _).2.2]
        omega
      have last := base64Chr_ne_pad small
      have three : slice buf i 3 = [buf i, buf (i + 1), buf (i + 2)] := rfl
      have split : slice buf i (3 * (rounds + 1)) = slice buf i 3 ++ slice buf (i + 3) (3 * rounds) := by
        rw [slice_append, Nat.mul_succ, Nat.add_comm]
      rw [base64Chunks, base64Chunk, List.append_assoc]
      simp only [List.cons_append, List.nil_append, Base64.decode]
      rw [if_neg last, group_chunk, ih, split, three]
      cases Base64.decode rest with
      | none => rfl
      | some bytes => simp

theorem decode_tail (buf : Nat → Byte) (i rem : Nat) (short : rem < 3) :
    Base64.decode (base64Tail buf i rem) = some (slice buf i rem) := by
  have pads : Chr.equals = Base64.pad := rfl
  rcases Nat.lt_succ_iff_lt_or_eq.mp short with less | rfl
  · rcases Nat.lt_succ_iff_lt_or_eq.mp less with none_left | rfl
    · have zero : rem = 0 := Nat.lt_one_iff.mp none_left
      rw [zero]
      rfl
    · rw [base64Tail, if_neg (by decide), if_pos rfl, Base64.decode, if_pos pads, if_pos rfl,
        padded_one]
      rfl
  · rw [base64Tail, if_pos rfl, Base64.decode, if_pos pads, if_pos rfl, padded_two]
    rfl

theorem sextets_small (a b c : Byte) :
    (a >>> 2).toNat < 64 ∧ (((a &&& 0x03) <<< 4) + (b >>> 4)).toNat < 64 ∧
      (((b &&& 0x0f) <<< 2) + (c >>> 6)).toNat < 64 ∧ (c &&& 0x3f).toNat < 64 := by
  have := a.toNat_lt
  have := b.toNat_lt
  have := c.toNat_lt
  rw [(high_bits a).1, second_sextet, third_sextet, (low_bits c).2.2]
  omega

theorem chunks_shape (buf : Nat → Byte) (rounds i : Nat) :
    (base64Chunks buf rounds i).length = 4 * rounds ∧
      ∀ c ∈ base64Chunks buf rounds i, c ∈ Base64.alphabet := by
  induction rounds generalizing i with
  | zero => simp [base64Chunks]
  | succ rounds ih =>
      obtain ⟨length, inside⟩ := ih (i + 3)
      obtain ⟨first, second, third, fourth⟩ := sextets_small (buf i) (buf (i + 1)) (buf (i + 2))
      constructor
      · rw [base64Chunks, List.length_append, length, base64Chunk]
        simp only [List.length_cons, List.length_nil]
        omega
      · intro c member
        rcases List.mem_append.mp member with here | later
        · simp only [base64Chunk, List.mem_cons, List.not_mem_nil, or_false] at here
          rcases here with rfl | rfl | rfl | rfl
          · exact base64Chr_mem first
          · exact base64Chr_mem second
          · exact base64Chr_mem third
          · exact base64Chr_mem fourth
        · exact inside c later

/-- The characters of the last group, and behind them its padding. -/
theorem tail_shape (buf : Nat → Byte) (i rem : Nat) (short : rem < 3) :
    ∃ text, base64Tail buf i rem = text ++ List.replicate ((3 - rem) % 3) Chr.equals ∧
      (∀ c ∈ text, c ∈ Base64.alphabet) ∧ (base64Tail buf i rem).length = 4 * ((rem + 2) / 3) := by
  -- A byte that is missing counts as a zero here.
  obtain ⟨first, second, -, -⟩ := sextets_small (buf i) (buf (i + 1)) 0
  have third : ((buf (i + 1) &&& 0x0f) <<< 2).toNat < 64 := by
    rw [(low_bits _).2.1]
    omega
  have alone : ((buf i &&& 0x03) <<< 4).toNat < 64 := by
    rw [(low_bits _).1]
    omega
  match rem, short with
  | 0, _ => exact ⟨[], rfl, by simp, rfl⟩
  | 1, _ =>
      refine ⟨[base64Chr (buf i >>> 2), base64Chr ((buf i &&& 0x03) <<< 4)], rfl, ?_, rfl⟩
      simp only [List.mem_cons, List.not_mem_nil, or_false]
      rintro c (rfl | rfl)
      · exact base64Chr_mem first
      · exact base64Chr_mem alone
  | 2, _ =>
      refine ⟨[base64Chr (buf i >>> 2), base64Chr (((buf i &&& 0x03) <<< 4) + (buf (i + 1) >>> 4)),
        base64Chr ((buf (i + 1) &&& 0x0f) <<< 2)], rfl, ?_, rfl⟩
      simp only [List.mem_cons, List.not_mem_nil, or_false]
      rintro c (rfl | rfl | rfl)
      · exact base64Chr_mem first
      · exact base64Chr_mem second
      · exact base64Chr_mem third

/-- Four characters of the alphabet for every three bytes, padded at the end only, and
a reader that follows RFC 4648 gets the bytes back. -/
theorem base64_decodes (data : List Byte) :
    (base64 data).length = 4 * ((data.length + 2) / 3) ∧
      (∃ text, base64 data = text ++ List.replicate ((3 - data.length % 3) % 3) Chr.equals ∧
        ∀ c ∈ text, c ∈ Base64.alphabet) ∧
      Base64.decode (base64 data) = some data := by
  have short : data.length % 3 < 3 := Nat.mod_lt _ (by decide)
  obtain ⟨length, inside⟩ := chunks_shape (fun i => data.getD i 0)
    ((data.length - data.length % 3) / 3) 0
  obtain ⟨text, padding, listed, size⟩ := tail_shape (fun i => data.getD i 0)
    (data.length - data.length % 3) (data.length % 3) short
  refine ⟨?_, ⟨base64Chunks (fun i => data.getD i 0) ((data.length - data.length % 3) / 3) 0 ++ text,
    ?_, ?_⟩, ?_⟩
  · rw [base64, List.length_append, length, size]
    omega
  · rw [base64, padding, List.append_assoc]
  · intro c member
    rcases List.mem_append.mp member with early | late
    · exact inside c early
    · exact listed c late
  · have rounds : 3 * ((data.length - data.length % 3) / 3) = data.length - data.length % 3 := by
      omega
    have total : data.length - data.length % 3 + data.length % 3 = data.length :=
      Nat.sub_add_cancel (Nat.mod_le _ _)
    rw [base64, decode_chunks, decode_tail _ _ _ short, rounds, Option.map_some]
    have joined := slice_append (fun i => data.getD i 0) 0 (data.length - data.length % 3)
      (data.length % 3)
    rw [Nat.zero_add, total, slice_data] at joined
    rw [joined]

example : base64 (ascii "foob") = ascii "Zm9vYg==" := by decide

end PdServ

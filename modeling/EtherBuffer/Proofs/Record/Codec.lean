import EtherBuffer.Record.Header
import Mathlib.Data.Nat.Bitwise
import Mathlib.Tactic.SplitIfs

/-! Headers as bytes, in both directions. -/
namespace EtherBuffer

namespace Word

theorem value_lt (a b c d : UInt8) : value [a, b, c, d] < 2 ^ 32 := by
  have ha := a.toNat_lt
  have hb := b.toNat_lt
  have hc := c.toNat_lt
  have hd := d.toNat_lt
  simp only [value]
  omega

theorem toBytes_ofBytes {bs : List UInt8} (h : bs.length = 4) : toBytes (ofBytes bs) = bs := by
  obtain ⟨a, b, c, d, rfl⟩ : ∃ a b c d, bs = [a, b, c, d] := by
    match bs, h with
    | [a, b, c, d], _ => exact ⟨a, b, c, d, rfl⟩
  have hv : (ofBytes [a, b, c, d]).toNat = value [a, b, c, d] :=
    UInt32.toNat_ofNat_of_lt' (value_lt a b c d)
  have ha := a.toNat_lt
  have hb := b.toNat_lt
  have hc := c.toNat_lt
  have hd := d.toNat_lt
  simp only [toBytes, List.cons.injEq, and_true, ← UInt8.toNat_inj, UInt32.toNat_toUInt8,
    UInt32.toNat_shiftRight, Nat.shiftRight_eq_div_pow, UInt32.reduceToNat, Nat.reduceMod,
    Nat.reducePow, hv, value]
  omega

theorem flatMap_toBytes_nth {bs : List UInt8} {k n : ℕ} (h : 4 * (k + n) ≤ bs.length) :
    (List.range' k n).flatMap (fun i => toBytes (nth bs i)) = (bs.drop (4 * k)).take (4 * n) := by
  induction n generalizing k with
  | zero => simp
  | succ n ih =>
    have hfirst : toBytes (nth bs k) = (bs.drop (4 * k)).take 4 :=
      toBytes_ofBytes (by simp; omega)
    have hrest := ih (k := k + 1) (by omega)
    have hdrop : bs.drop (4 * (k + 1)) = (bs.drop (4 * k)).drop 4 := by
      rw [List.drop_drop, Nat.mul_add]
    rw [List.range'_succ, List.flatMap_cons, hfirst, hrest, hdrop, ← List.take_add]
    congr 1
    omega

end Word

namespace Header

/-- The low byte is a stage, and of the other bits only the mark of a tag may be set. -/
def IsStageWord (w : UInt32) : Prop :=
  w &&& 0xFF ≤ 2 ∧ w >>> 9 = 0

instance (w : UInt32) : Decidable (IsStageWord w) :=
  inferInstanceAs (Decidable (_ ∧ _))

/-- What a stage word says, without the bits that nothing reads. -/
def canonicalStageWord (w : UInt32) : UInt32 :=
  (if w &&& 0xFF ≤ 2 then w &&& 0xFF else 0) ||| (w &&& taggedBit)

theorem isStageWord_iff {w : UInt32} :
    IsStageWord w ↔ w ∈ [0, 1, 2, taggedBit, taggedBit ||| 1, taggedBit ||| 2] := by
  have hlow : (w &&& 0xFF).toNat = w.toNat % 256 := by
    rw [UInt32.toNat_and]
    exact Nat.and_two_pow_sub_one_eq_mod w.toNat 8
  have hhigh : (w >>> 9).toNat = w.toNat / 512 := by
    rw [UInt32.toNat_shiftRight]
    exact Nat.shiftRight_eq_div_pow w.toNat 9
  have hmark : taggedBit.toNat = 256 ∧ (taggedBit ||| 1).toNat = 257 ∧
      (taggedBit ||| 2).toNat = 258 := by decide
  simp only [IsStageWord, UInt32.le_iff_toNat_le, ← UInt32.toNat_inj, hlow, hhigh, List.mem_cons,
    List.not_mem_nil, or_false, hmark, UInt32.reduceToNat]
  omega

theorem and_taggedBit (w : UInt32) : w &&& taggedBit = 0 ∨ w &&& taggedBit = taggedBit := by
  have h : (w &&& taggedBit).toNat = (w.toNat.testBit 8).toNat * 2 ^ 8 := by
    rw [UInt32.toNat_and]
    exact Nat.and_two_pow w.toNat 8
  have h₀ : (0 : UInt32).toNat = 0 ∧ taggedBit.toNat = 256 := by decide
  cases hb : w.toNat.testBit 8 with
  | false => exact Or.inl (UInt32.toNat_inj.mp (by simp [h, hb]))
  | true => exact Or.inr (UInt32.toNat_inj.mp (by simp [h, hb, h₀]))

theorem le_two_iff {w : UInt32} : w ≤ 2 ↔ w = 0 ∨ w = 1 ∨ w = 2 := by
  simp only [UInt32.le_iff_toNat_le, ← UInt32.toNat_inj, UInt32.reduceToNat]
  omega

theorem toWord_ofWord (w : UInt32) :
    (Stage.ofWord w).toWord = if w &&& 0xFF ≤ 2 then w &&& 0xFF else 0 := by
  unfold Stage.ofWord
  generalize w &&& 0xFF = low
  by_cases hle : low ≤ 2
  · rw [if_pos hle]
    obtain rfl | rfl | rfl := le_two_iff.mp hle <;> rfl
  · have h₁ : low ≠ 1 := fun h => hle (le_two_iff.mpr (Or.inr (Or.inl h)))
    have h₂ : low ≠ 2 := fun h => hle (le_two_iff.mpr (Or.inr (Or.inr h)))
    rw [if_neg hle, if_neg h₁, if_neg h₂]
    rfl

/-- What is read of a word is the word without the bits that nothing reads. -/
theorem stageWord_decode (b : List UInt8) :
    (decode b).stageWord = canonicalStageWord (Word.nth b 5) := by
  change (Stage.ofWord _).toWord ||| (if _ &&& taggedBit != 0 then taggedBit else 0) = _
  rw [toWord_ofWord, canonicalStageWord]
  rcases and_taggedBit (Word.nth b 5) with h | h <;> rw [h] <;> rfl

/-- A stage word says all there is in it, and a word that does is a stage word. -/
theorem canonicalStageWord_eq_self_iff {w : UInt32} :
    canonicalStageWord w = w ↔ IsStageWord w := by
  rw [isStageWord_iff]
  constructor
  · intro h
    rw [← h, canonicalStageWord, ← toWord_ofWord]
    rcases and_taggedBit w with ht | ht <;> rw [ht] <;> cases Stage.ofWord w <;> decide
  · simp only [List.mem_cons, List.not_mem_nil, or_false]
    rintro (rfl | rfl | rfl | rfl | rfl | rfl) <;> decide

theorem encode_decode {b : List UInt8} (hb : b.length = size) :
    (decode b).encode =
      b.take 20 ++ Word.toBytes (canonicalStageWord (Word.nth b 5)) ++ b.drop 24 := by
  have hsize : size = 36 := rfl
  have hlow : (List.range' 0 5).flatMap (fun i => Word.toBytes (Word.nth b i)) = b.take 20 :=
    Word.flatMap_toBytes_nth (by omega)
  have hhigh : (List.range' 6 3).flatMap (fun i => Word.toBytes (Word.nth b i)) = b.drop 24 := by
    rw [Word.flatMap_toBytes_nth (by omega)]
    exact List.take_of_length_le (by simp; omega)
  rw [← hlow, ← hhigh, ← stageWord_decode]
  rfl

/-- Bytes that are read as a header and written again are the same exactly when nothing was in them
that a header does not hold. -/
theorem encode_decode_eq_self_iff {b : List UInt8} (hb : b.length = size) :
    (decode b).encode = b ↔ IsStageWord (Word.nth b 5) := by
  have hsize : size = 36 := rfl
  have hsplit : b = b.take 20 ++ Word.toBytes (Word.nth b 5) ++ b.drop 24 := by
    have hword : Word.toBytes (Word.nth b 5) = (b.drop 20).take 4 :=
      Word.toBytes_ofBytes (by simp; omega)
    have htail : b.drop 24 = (b.drop 20).drop 4 := by rw [List.drop_drop]
    rw [hword, htail, List.append_assoc, List.take_append_drop, List.take_append_drop]
  rw [← canonicalStageWord_eq_self_iff, encode_decode hb]
  conv_lhs => rhs; rw [hsplit]
  rw [List.append_left_inj, List.append_right_inj]
  exact ⟨fun h => by rw [← Word.ofBytes_toBytes (canonicalStageWord _), h, Word.ofBytes_toBytes],
    fun h => by rw [h]⟩

/-- Headers are read back as they were, and bytes that are read and written again lose only what nothing
reads. -/
theorem codec_faithful :
    (∀ h : Header, h.encode.length = size ∧ decode h.encode = h) ∧
      ∀ b : List UInt8, b.length = size →
        ((decode b).encode = b ↔ IsStageWord (Word.nth b 5)) ∧
        (decode b).encode =
          b.take 20 ++ Word.toBytes (canonicalStageWord (Word.nth b 5)) ++ b.drop 24 ∧
        decode (decode b).encode = decode b :=
  ⟨fun h => ⟨h.length_encode, h.decode_encode⟩, fun b hb =>
    ⟨encode_decode_eq_self_iff hb, encode_decode hb, (decode b).decode_encode⟩⟩

/-- No stage but the mark of a tag, among bits that nothing reads. -/
theorem codec_faithful_unread :
    let b : List UInt8 := .replicate 20 7 ++ [0x03, 0xFF, 0x00, 0x80] ++ .replicate 12 9
    b.length = size ∧ (decode b).encode ≠ b ∧
      (decode b).encode = .replicate 20 7 ++ [0x00, 0x01, 0x00, 0x00] ++ .replicate 12 9 ∧
      decode (decode b).encode = decode b := by
  intro b
  have hb : b.length = size := by decide
  obtain ⟨hself, hbytes, hagain⟩ := codec_faithful.2 b hb
  have hword : ¬ IsStageWord (Word.nth b 5) := by decide
  exact ⟨hb, fun h => hword (hself.mp h), hbytes.trans (by decide), hagain⟩

end Header

end EtherBuffer

import Mathlib.Data.List.Infix
import Mathlib.Tactic.IntervalCases

/-!
# Code points of a text

`unicode_len_utf8` of `unicode.cpp` reads the length of a code point off its first byte.  In UTF-8
it is right (`unicodeLenUtf8_encode`), so a text can be cut into code points in one way only
(`encodeUtf8_split`).
-/

namespace IFairy

/-- `unicode_len_utf8`. -/
def unicodeLenUtf8 (src : UInt8) : ℕ :=
  [1, 1, 1, 1, 1, 1, 1, 1, 1, 1, 1, 1, 2, 2, 3, 4].getD (src.toNat / 16) 0

/-- The UTF-8 text of code points. -/
def encodeUtf8 (cpts : List Char) : List UInt8 := cpts.flatMap String.utf8EncodeChar

def ValidUtf8 (bytes : List UInt8) : Prop := ∃ cpts, encodeUtf8 cpts = bytes

@[simp] lemma encodeUtf8_nil : encodeUtf8 [] = [] := rfl

lemma encodeUtf8_cons (c : Char) (cpts : List Char) :
    encodeUtf8 (c :: cpts) = String.utf8EncodeChar c ++ encodeUtf8 cpts := List.flatMap_cons

lemma encodeUtf8_append (cpts cpts' : List Char) :
    encodeUtf8 (cpts ++ cpts') = encodeUtf8 cpts ++ encodeUtf8 cpts' := List.flatMap_append

lemma unicodeLenUtf8_pos (src : UInt8) : 0 < unicodeLenUtf8 src := by
  have h : src.toNat / 16 < 16 := by
    have := src.toNat_lt
    omega
  unfold unicodeLenUtf8
  generalize src.toNat / 16 = high at h
  interval_cases high <;> exact Nat.succ_pos _

lemma unicodeLenUtf8_ofNat {n : ℕ} (h : n < 256) :
    unicodeLenUtf8 (UInt8.ofNat n) =
      if n < 0xC0 then 1 else if n < 0xE0 then 2 else if n < 0xF0 then 3 else 4 := by
  rw [unicodeLenUtf8, UInt8.toNat_ofNat_of_lt' h]
  have hhigh : n / 16 < 16 := by omega
  generalize hn : n / 16 = high at hhigh
  interval_cases high <;> split_ifs <;> first | omega | rfl

lemma unicodeLenUtf8_encode (c : Char) : ∃ b rest, String.utf8EncodeChar c = b :: rest ∧
    unicodeLenUtf8 b = (String.utf8EncodeChar c).length := by
  have hvalid : c.val.toNat < 0x110000 := by
    have := c.valid
    simp only [UInt32.isValidChar, Nat.isValidChar] at this
    omega
  fun_cases String.utf8EncodeChar c with
  | case1 v h =>
    have hv : v = c.val.toNat := rfl
    refine ⟨_, _, rfl, ?_⟩
    rw [unicodeLenUtf8_ofNat (by omega), if_pos (by omega)]
    rfl
  | case2 v h1 h2 =>
    refine ⟨_, _, rfl, ?_⟩
    rw [unicodeLenUtf8_ofNat (by omega), if_neg (by omega), if_pos (by omega)]
    rfl
  | case3 v h1 h2 h3 =>
    refine ⟨_, _, rfl, ?_⟩
    rw [unicodeLenUtf8_ofNat (by omega), if_neg (by omega), if_neg (by omega), if_pos (by omega)]
    rfl
  | case4 v h1 h2 h3 =>
    refine ⟨_, _, rfl, ?_⟩
    rw [unicodeLenUtf8_ofNat (by omega), if_neg (by omega), if_neg (by omega), if_neg (by omega)]
    rfl

lemma utf8EncodeChar_injective : Function.Injective String.utf8EncodeChar := by
  intro c d h
  have hc := ByteArray.utf8DecodeChar?_utf8EncodeChar_append (b := ByteArray.empty) (c := c)
  rw [h, ByteArray.utf8DecodeChar?_utf8EncodeChar_append] at hc
  exact (Option.some.inj hc).symm

lemma encode_append_inj {c d : Char} {rest rest' : List UInt8}
    (h : String.utf8EncodeChar c ++ rest = String.utf8EncodeChar d ++ rest') :
    c = d ∧ rest = rest' := by
  obtain ⟨b, bs, hc, hlen⟩ := unicodeLenUtf8_encode c
  obtain ⟨b', bs', hd, hlen'⟩ := unicodeLenUtf8_encode d
  have hb : b = b' := by
    rw [hc, hd] at h
    exact (List.cons.inj h).1
  obtain ⟨hchar, hrest⟩ := List.append_inj h (by rw [← hlen, ← hlen', hb])
  exact ⟨utf8EncodeChar_injective hchar, hrest⟩

lemma encodeUtf8_split {cpts cpts' : List Char} {rest : List UInt8}
    (h : encodeUtf8 cpts ++ rest = encodeUtf8 cpts') :
    ∃ others, cpts' = cpts ++ others ∧ rest = encodeUtf8 others := by
  induction cpts generalizing cpts' with
  | nil => exact ⟨cpts', rfl, h⟩
  | cons c cpts ih =>
    cases cpts' with
    | nil =>
      rw [encodeUtf8_cons, encodeUtf8_nil, List.append_assoc] at h
      exact absurd (List.append_eq_nil_iff.1 h).1 String.utf8EncodeChar_ne_nil
    | cons d cpts' =>
      rw [encodeUtf8_cons, encodeUtf8_cons, List.append_assoc] at h
      obtain ⟨rfl, hrest⟩ := encode_append_inj h
      obtain ⟨others, rfl, hothers⟩ := ih hrest
      exact ⟨others, rfl, hothers⟩

end IFairy

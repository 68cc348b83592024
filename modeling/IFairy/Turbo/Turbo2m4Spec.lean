import IFairy.Turbo.Turbo2m4

/-!
# What the mixed cache format stores

The selected positions are the sorted indices of rank below `n_positions`
(`selectedPositions_spec`).  The four-bit codes are numbered through: code `j` belongs to the value
`selectedValue j`, in both modes (`storeFourBit_eq`, `dequantizeTurbo2m4Block_eq`).  So the decoder
returns the norm times the four-bit centroid of a selected value and the two-bit centroid of the
others, and `recon_sq` is the sum of the squares of these centroids (`quantize_dequantize`).

Whether these are nearest centroids depends on the thresholds.  The two-bit thresholds are the
midpoints of the centroids; some four-bit thresholds are not, so a selected value between such a
threshold and its midpoint is not rounded to a nearest centroid (`turbo2m4_right_iff`).
-/

namespace IFairy

open ByteFields InsertionSort NearestCentroid TopSelection

/-! ## Positions -/

namespace Turbo2m4Format

variable (fmt : Turbo2m4Format) (x : ℕ → ℚ)

/-- The formats that fit a block: a byte of `qh` is filled by two values or by half a group. -/
def Admissible : Prop := fmt.n ≤ 128 ∧ if fmt.group then 4 ∣ fmt.n else 2 ∣ fmt.n

instance : Decidable fmt.Admissible := inferInstanceAs (Decidable (_ ∧ _))

/-- The number of values or groups to select from. -/
def count : ℕ := if fmt.group then 128 / 4 else 128

/-- The score of a value or group. -/
def score : ℕ → ℚ := if fmt.group then groupScore x else fun i => |x i|

/-- The value or group that value `i` is selected with. -/
def unit (i : ℕ) : ℕ := if fmt.group then i / 4 else i

/-- Value `i` is among the selected ones. -/
def Selects (i : ℕ) : Prop := rankOf (fmt.score x) fmt.count (fmt.unit i) < fmt.nPositions

instance (i : ℕ) : Decidable (fmt.Selects x i) := inferInstanceAs (Decidable (_ < _))

/-- The value that four-bit code `j` belongs to, when the positions are `p`. -/
def selectedValue (p : ℕ → ℕ) (j : ℕ) : ℕ := if fmt.group then 4 * p (j / 4) + j % 4 else p j

variable {fmt}

lemma Admissible.nPositions_le (h : fmt.Admissible) : fmt.nPositions ≤ fmt.count := by
  obtain ⟨hn, hdvd⟩ := h
  unfold nPositions count
  split_ifs at hdvd ⊢ <;> omega

lemma Admissible.two_dvd (h : fmt.Admissible) : 2 ∣ fmt.n := by
  obtain ⟨-, hdvd⟩ := h
  split_ifs at hdvd <;> omega

lemma unit_lt {i : ℕ} (hi : i < 128) : fmt.unit i < fmt.count := by
  unfold unit count
  split_ifs <;> omega

end Turbo2m4Format

lemma groupScore_nonneg (x : ℕ → ℚ) (group : ℕ) : 0 ≤ groupScore x group :=
  (le_foldl_max_iff (fun lane => |x (4 * group + lane)|) 0 0 4).mpr (Or.inl (le_refl 0))

lemma neg_one_lt_score (fmt : Turbo2m4Format) (x : ℕ → ℚ) (i : ℕ) : -1 < fmt.score x i := by
  have hneg : (-1 : ℚ) < 0 := by norm_num
  unfold Turbo2m4Format.score
  split_ifs
  · exact hneg.trans_le (groupScore_nonneg x i)
  · exact hneg.trans_le (abs_nonneg _)

lemma selectedPositions_spec {fmt : Turbo2m4Format} (hadm : fmt.Admissible) (x : ℕ → ℚ) :
    SortedBelow fmt.nPositions (selectedPositions fmt x) ∧
    (∀ s < fmt.nPositions, selectedPositions fmt x s < fmt.count) ∧
    ∀ i < fmt.count, (∃ s < fmt.nPositions, selectedPositions fmt x s = i) ↔
      rankOf (fmt.score x) fmt.count i < fmt.nPositions := by
  have heq : selectedPositions fmt x =
      insertionSort fmt.nPositions (selectTop (fmt.score x) (-1) fmt.count fmt.nPositions) := by
    unfold selectedPositions Turbo2m4Format.score Turbo2m4Format.count
    split_ifs with hgroup
    · rfl
    · simp only [turbo2m4SelectScalar, turbo2m4SortPositions, Turbo2m4Format.nPositions, hgroup,
        if_false, Bool.false_eq_true]
  obtain ⟨hlt, hinj, hrank⟩ := selectTop_spec (neg_one_lt_score fmt x) hadm.nPositions_le
  obtain ⟨hsorted, himage, -⟩ := insertionSort_spec (n := fmt.nPositions)
    (a := selectTop (fmt.score x) (-1) fmt.count fmt.nPositions) fun b hb c hc h =>
      hinj b (Finset.mem_range.mp hb) c (Finset.mem_range.mp hc) h
  rw [← heq] at hsorted himage
  have hmem : ∀ i, (∃ s < fmt.nPositions, selectedPositions fmt x s = i) ↔
      ∃ s < fmt.nPositions, selectTop (fmt.score x) (-1) fmt.count fmt.nPositions s = i := by
    intro i
    simpa only [Finset.mem_image, Finset.mem_range] using Finset.ext_iff.mp himage i
  refine ⟨hsorted, fun s hs => ?_, fun i hi => (hmem i).trans (hrank i hi)⟩
  obtain ⟨t, ht, heqt⟩ := (hmem _).mp ⟨s, hs, rfl⟩
  rw [← heqt]
  exact hlt t ht

section Values

variable {fmt : Turbo2m4Format} (hadm : fmt.Admissible) (x : ℕ → ℚ)

include hadm in
lemma selectedValue_iff {i : ℕ} (hi : i < 128) :
    (∃ j < fmt.n, fmt.selectedValue (selectedPositions fmt x) j = i) ↔ fmt.Selects x i := by
  obtain ⟨-, -, hrank⟩ := selectedPositions_spec hadm x
  rw [Turbo2m4Format.Selects, ← hrank _ (Turbo2m4Format.unit_lt hi)]
  obtain ⟨hn, hdvd⟩ := hadm
  unfold Turbo2m4Format.selectedValue Turbo2m4Format.unit Turbo2m4Format.nPositions
  split_ifs at hdvd ⊢
  · constructor
    · rintro ⟨j, hj, rfl⟩
      exact ⟨j / 4, by omega, by omega⟩
    · rintro ⟨s, hs, hsi⟩
      refine ⟨4 * s + i % 4, by omega, ?_⟩
      rw [show (4 * s + i % 4) / 4 = s by omega, hsi]
      omega
  · exact Iff.rfl

include hadm in
lemma selectedValue_lt {j : ℕ} (hj : j < fmt.n) :
    fmt.selectedValue (selectedPositions fmt x) j < 128 := by
  obtain ⟨-, hlt, -⟩ := selectedPositions_spec hadm x
  obtain ⟨hn, hdvd⟩ := hadm
  unfold Turbo2m4Format.selectedValue
  unfold Turbo2m4Format.nPositions Turbo2m4Format.count at hlt
  split_ifs at hdvd hlt ⊢
  · have := hlt (j / 4) (by omega)
    omega
  · exact hlt j hj

include hadm in
lemma selectedValue_inj {j k : ℕ} (hj : j < fmt.n) (hk : k < fmt.n)
    (h : fmt.selectedValue (selectedPositions fmt x) j =
      fmt.selectedValue (selectedPositions fmt x) k) : j = k := by
  obtain ⟨hsorted, -, -⟩ := selectedPositions_spec hadm x
  have hinj : ∀ s < fmt.nPositions, ∀ t < fmt.nPositions,
      selectedPositions fmt x s = selectedPositions fmt x t → s = t := by
    intro s hs t ht hst
    rcases lt_trichotomy s t with hlt | rfl | hgt
    · exact absurd hst (Nat.ne_of_lt (hsorted s t hlt ht))
    · rfl
    · exact absurd hst.symm (Nat.ne_of_lt (hsorted t s hgt hs))
  obtain ⟨hn, hdvd⟩ := hadm
  unfold Turbo2m4Format.selectedValue at h
  unfold Turbo2m4Format.nPositions at hinj
  split_ifs at hdvd hinj h
  · have hslot := hinj (j / 4) (by omega) (k / 4) (by omega) (by omega)
    omega
  · exact hinj j hj k hk h

end Values

/-! ## Stored codes -/

/-- The four-bit loops as one loop over the codes, for positions `p`. -/
def storeCodes (fmt : Turbo2m4Format) (x : ℕ → ℚ) (p : ℕ → ℕ) (s : (ℕ → UInt8) × ℚ) (m : ℕ) :
    (ℕ → UInt8) × ℚ :=
  (List.range m).foldl (fun s j => refine4bit fmt x s (fmt.selectedValue p j) (j / 2) (j % 2)) s

section Stores

variable {fmt : Turbo2m4Format} {x : ℕ → ℚ}

lemma refine4bit_of_lt (s : (ℕ → UInt8) × ℚ) (i byte part : ℕ) {a : ℕ}
    (ha : a < 32 + fmt.nPositions) : (refine4bit fmt x s i byte part).1 a = s.1 a :=
  Function.update_of_ne (Nat.ne_of_lt (ha.trans_le (Nat.le_add_right _ _))) _ _

/-- In both modes code `j` goes to half `j % 2` of byte `j / 2`. -/
lemma storeFourBit_eq (hadm : fmt.Admissible) {p : ℕ → ℕ} {s : (ℕ → UInt8) × ℚ}
    (hp : ∀ slot < fmt.nPositions, (s.1 (32 + slot)).toNat = p slot) :
    storeFourBit fmt x s = storeCodes fmt x p s fmt.n := by
  let inv : (ℕ → UInt8) × ℚ → Prop := fun s =>
    ∀ slot < fmt.nPositions, (s.1 (32 + slot)).toNat = p slot
  have hkeep : ∀ t, inv t → ∀ i byte part, inv (refine4bit fmt x t i byte part) := by
    intro t ht i byte part slot hslot
    rw [refine4bit_of_lt t i byte part (Nat.add_lt_add_left hslot 32)]
    exact ht slot hslot
  obtain ⟨-, hdvd⟩ := hadm
  unfold storeFourBit storeCodes
  by_cases hgroup : fmt.group = true
  · rw [if_pos hgroup] at hdvd ⊢
    have hn : fmt.n = fmt.nPositions * 4 := by
      rw [Turbo2m4Format.nPositions, if_pos hgroup, Nat.div_mul_cancel hdvd]
    rw [hn, foldl_range_mul]
    refine foldl_congr_of_inv inv (fun t slot hslot ht => ?_) hp
    have hslot' := List.mem_range.mp hslot
    constructor
    · rw [ht slot hslot']
      refine foldl_congr_of_inv (fun _ => True) (fun t lane hlane _ => ⟨?_, trivial⟩) trivial
      have hlane' := List.mem_range.mp hlane
      rw [Turbo2m4Format.selectedValue, if_pos hgroup, show (4 * slot + lane) / 4 = slot by omega,
        show (4 * slot + lane) % 4 = lane by omega,
        show (4 * slot + lane) / 2 = 2 * slot + lane / 2 by omega,
        show (4 * slot + lane) % 2 = lane % 2 by omega]
    · exact List.foldlRecOn (List.range 4) _ ht fun t ht lane _ => hkeep t ht _ _ _
  · have hnot : fmt.group = false := by simpa using hgroup
    rw [if_neg hgroup]
    have hn : fmt.nPositions = fmt.n := by rw [Turbo2m4Format.nPositions, if_neg hgroup]
    refine foldl_congr_of_inv inv (fun t slot hslot ht => ⟨?_, hkeep t ht _ _ _⟩) hp
    rw [ht slot (hn ▸ List.mem_range.mp hslot), Turbo2m4Format.selectedValue, if_neg hgroup]

/-- What `m` four-bit codes have changed, when the codes were cleared before. -/
structure Refined (fmt : Turbo2m4Format) (x : ℕ → ℚ) (p : ℕ → ℕ) (s₀ s : (ℕ → UInt8) × ℚ)
    (m : ℕ) : Prop where
  low : ∀ a < 32 + fmt.nPositions, s.1 a = s₀.1 a
  codes : ∀ j < fmt.n, fieldOf 4 2 (32 + fmt.nPositions) s.1 j =
    if j < m then nearestCentroid4bit (x (fmt.selectedValue p j)) else 0
  sum : s.2 = s₀.2 + ∑ j ∈ Finset.range m,
    (centroid4bitAt (nearestCentroid4bit (x (fmt.selectedValue p j))) ^ 2 -
      centroid2bitAt (fieldOf 2 4 0 s₀.1 (fmt.selectedValue p j)) ^ 2)

lemma nearestCentroid2bit_lt (v : ℚ) : nearestCentroid2bit v < 2 ^ 2 :=
  (firstAbove_le thresholds2bit v).trans_lt (by decide)

lemma nearestCentroid4bit_lt (v : ℚ) : nearestCentroid4bit v < 2 ^ 4 :=
  (firstAbove_le thresholds4bit v).trans_lt (by decide)

lemma Refined.refine4bit {p : ℕ → ℕ} {s₀ s : (ℕ → UInt8) × ℚ} {m : ℕ}
    (h : Refined fmt x p s₀ s m) (hm : m < fmt.n) (hvalue : fmt.selectedValue p m < 128) :
    Refined fmt x p s₀ (refine4bit fmt x s (fmt.selectedValue p m) (m / 2) (m % 2)) (m + 1) := by
  have hq2 : readPart 2 (s.1 (fmt.selectedValue p m / 4)) (fmt.selectedValue p m % 4) =
      fieldOf 2 4 0 s₀.1 (fmt.selectedValue p m) := by
    rw [fieldOf, Nat.zero_add, h.low _ (by omega)]
  refine ⟨fun a ha => ?_, fun j hj => ?_, ?_⟩
  · rw [refine4bit_of_lt s _ _ _ ha]
    exact h.low a ha
  · have hfield := fieldOf_orField (w := 4) (m := 2) rfl (32 + fmt.nPositions) s.1
      (j := m) (nearestCentroid4bit_lt (x (fmt.selectedValue p m))) j
    change fieldOf 4 2 (32 + fmt.nPositions) (orField 4 2 (32 + fmt.nPositions) s.1 m
      (nearestCentroid4bit (x (fmt.selectedValue p m)))) j = _
    rw [hfield, h.codes j hj]
    by_cases hjm : j = m
    · subst hjm
      rw [if_pos rfl, if_neg (lt_irrefl j), if_pos (Nat.lt_succ_self j), Nat.zero_or]
    · rw [if_neg hjm]
      exact if_congr (by omega) rfl rfl
  · change s.2 + _ = _
    rw [h.sum, hq2, Finset.sum_range_succ]
    ring

lemma refined_storeCodes (x : ℕ → ℚ) {p : ℕ → ℕ} {s : (ℕ → UInt8) × ℚ}
    (hvalues : ∀ j < fmt.n, fmt.selectedValue p j < 128)
    (hclear : ∀ j < fmt.n, fieldOf 4 2 (32 + fmt.nPositions) s.1 j = 0) :
    ∀ m ≤ fmt.n, Refined fmt x p s (storeCodes fmt x p s m) m := by
  intro m
  induction m with
  | zero =>
    refine fun _ => ⟨fun _ _ => rfl, fun j hj => ?_, ?_⟩
    · rw [if_neg (Nat.not_lt_zero j)]
      exact hclear j hj
    · rw [Finset.sum_range_zero, add_zero]
      rfl
  | succ m ih =>
    intro hm
    rw [storeCodes, List.range_succ, List.foldl_append]
    exact (ih (by omega)).refine4bit hm (hvalues m hm)

lemma storeTwoBit_spec (bytes : ℕ → UInt8) (hclear : ∀ a < 32, bytes a = 0) :
    (∀ i < 128, fieldOf 2 4 0 (storeTwoBit x (bytes, 0)).1 i = nearestCentroid2bit (x i)) ∧
    (∀ a, 32 ≤ a → (storeTwoBit x (bytes, 0)).1 a = bytes a) ∧
    (storeTwoBit x (bytes, 0)).2 =
      ∑ i ∈ Finset.range 128, centroid2bitAt (nearestCentroid2bit (x i)) ^ 2 := by
  have hsplit : storeTwoBit x (bytes, 0) =
      ((List.range 128).foldl (fun b i => orField 2 4 0 b i (nearestCentroid2bit (x i))) bytes,
        (List.range 128).foldl (fun r i => r + centroid2bitAt (nearestCentroid2bit (x i)) *
          centroid2bitAt (nearestCentroid2bit (x i))) 0) :=
    foldl_prod (fun b i => orField 2 4 0 b i (nearestCentroid2bit (x i)))
      (fun r i => r + centroid2bitAt (nearestCentroid2bit (x i)) *
          centroid2bitAt (nearestCentroid2bit (x i))) (List.range 128) bytes 0
  rw [hsplit]
  refine ⟨fun i hi => ?_, fun a ha => ?_, ?_⟩
  · have hfield := fun (b : ℕ → UInt8) (j : ℕ) => fieldOf_orField (w := 2) (m := 4) rfl 0 b
      (j := j) (nearestCentroid2bit_lt (x j)) i
    rw [foldl_read_once (fun b i => orField 2 4 0 b i (nearestCentroid2bit (x i)))
      (fieldOf 2 4 0 · i) List.nodup_range (List.mem_range.mpr hi)
      (fun v => v ||| nearestCentroid2bit (x i)) (fun b => by rw [hfield b i, if_pos rfl])
      (fun j _ hj b => by rw [hfield b j, if_neg hj.symm]) bytes,
      fieldOf_of_zero (hclear _ (by omega)), Nat.zero_or]
  · refine foldl_read_of_not_cover (fun b i => orField 2 4 0 b i (nearestCentroid2bit (x i)))
      (fun b : ℕ → UInt8 => b a) (fun j hj b => Function.update_of_ne ?_ _ _) bytes
    have := List.mem_range.mp hj
    omega
  · have hsum := foldl_accumulate (fun (r : ℚ) i => r + centroid2bitAt (nearestCentroid2bit (x i)) *
      centroid2bitAt (nearestCentroid2bit (x i))) id
      (fun i => centroid2bitAt (nearestCentroid2bit (x i)) ^ 2) 128
      (fun r i _ => by simp only [id]; ring) 0
    simpa only [id, zero_add] using hsum

lemma storePositions_spec (hadm : fmt.Admissible) (bytes : ℕ → UInt8) :
    (∀ slot < fmt.nPositions,
      (storePositions fmt x bytes (32 + slot)).toNat = selectedPositions fmt x slot) ∧
    ∀ a, a < 32 ∨ 32 + fmt.nPositions ≤ a → storePositions fmt x bytes a = bytes a := by
  obtain ⟨-, hlt, -⟩ := selectedPositions_spec hadm x
  have hcount : fmt.count ≤ 128 := by
    unfold Turbo2m4Format.count
    split_ifs <;> omega
  refine ⟨fun slot hslot => ?_, fun a ha => ?_⟩
  · rw [storePositions, foldl_update_of_mem (fun slot => 32 + slot)
      (fun slot => UInt8.ofNat (selectedPositions fmt x slot))
      (fun a => UInt8.ofNat (selectedPositions fmt x (a - 32)))
      (fun i _ => by simp only [Nat.add_sub_cancel_left]) bytes
      ⟨slot, List.mem_range.mpr hslot, rfl⟩, Nat.add_sub_cancel_left, UInt8.toNat_ofNat']
    exact Nat.mod_eq_of_lt ((hlt slot hslot).trans_le (hcount.trans (by norm_num)))
  · refine foldl_update_of_not_mem (fun slot => 32 + slot) _ bytes ?_
    rintro ⟨slot, hslot, rfl⟩
    have := List.mem_range.mp hslot
    omega

end Stores

/-! ## Quantised and back -/

section RoundTrip

variable (fmt : Turbo2m4Format) (x : ℕ → ℚ)

/-- The centroid that a value is stored as. -/
def storedCentroid (i : ℕ) : ℚ :=
  if fmt.Selects x i then centroid4bitAt (nearestCentroid4bit (x i))
  else centroid2bitAt (nearestCentroid2bit (x i))

variable {fmt x}

/-- What a quantised block holds. -/
structure Holds (fmt : Turbo2m4Format) (x : ℕ → ℚ) (bytes : ℕ → UInt8) : Prop where
  twoBit : ∀ i < 128, fieldOf 2 4 0 bytes i = nearestCentroid2bit (x i)
  positions : ∀ slot < fmt.nPositions,
    (bytes (32 + slot)).toNat = selectedPositions fmt x slot
  fourBit : ∀ j < fmt.n, fieldOf 4 2 (32 + fmt.nPositions) bytes j =
    nearestCentroid4bit (x (fmt.selectedValue (selectedPositions fmt x) j))

lemma sum_selectedValue (hadm : fmt.Admissible) (g : ℕ → ℚ) :
    ∑ j ∈ Finset.range fmt.n, g (fmt.selectedValue (selectedPositions fmt x) j) =
      ∑ i ∈ Finset.range 128, if fmt.Selects x i then g i else 0 := by
  have himage : (Finset.range 128).filter (fmt.Selects x) =
      (Finset.range fmt.n).image (fmt.selectedValue (selectedPositions fmt x)) := by
    ext i
    simp only [Finset.mem_filter, Finset.mem_image, Finset.mem_range]
    constructor
    · rintro ⟨hi, hsel⟩
      exact (selectedValue_iff hadm x hi).mpr hsel
    · rintro ⟨j, hj, rfl⟩
      have hi := selectedValue_lt hadm x hj
      exact ⟨hi, (selectedValue_iff hadm x hi).mp ⟨j, hj, rfl⟩⟩
  rw [← Finset.sum_filter, himage, Finset.sum_image]
  intro j hj k hk h
  exact selectedValue_inj hadm x (Finset.mem_range.mp hj) (Finset.mem_range.mp hk) h

/-- The block after the quantiser, and its `recon_sq`. -/
lemma quantizeTurbo2m4Block_spec (hadm : fmt.Admissible) (encodeNorm : ℚ → UInt16)
    (bytes : ℕ → UInt8) :
    Holds fmt x (quantizeTurbo2m4Block fmt x encodeNorm bytes).1.bytes ∧
    (quantizeTurbo2m4Block fmt x encodeNorm bytes).1.d =
      encodeNorm (quantizeTurbo2m4Block fmt x encodeNorm bytes).2 ∧
    (quantizeTurbo2m4Block fmt x encodeNorm bytes).2 =
      ∑ i ∈ Finset.range 128, storedCentroid fmt x i ^ 2 := by
  generalize hcleared : clearBytes (32 + fmt.nPositions) (fmt.n / 2) (clearBytes 0 32 bytes) = cleared
  have hqs : ∀ a < 32, cleared a = 0 := by
    intro a ha
    rw [← hcleared, clearBytes, if_neg (by omega), clearBytes, if_pos (by omega)]
  have hqh : ∀ j < fmt.n, cleared (32 + fmt.nPositions + j / 2) = 0 := by
    intro j hj
    have htwo := hadm.two_dvd
    rw [← hcleared, clearBytes, if_pos (by omega)]
  obtain ⟨htwo, hbehind, hsumTwo⟩ := storeTwoBit_spec (x := x) cleared hqs
  generalize hs : storeTwoBit x (cleared, 0) = s at htwo hbehind hsumTwo
  obtain ⟨hpositions, hother⟩ := storePositions_spec (x := x) hadm s.1
  have hrun : quantizeTurbo2m4Block fmt x encodeNorm bytes =
      (⟨encodeNorm (storeCodes fmt x (selectedPositions fmt x)
        (storePositions fmt x s.1, s.2) fmt.n).2, (storeCodes fmt x (selectedPositions fmt x)
        (storePositions fmt x s.1, s.2) fmt.n).1⟩, (storeCodes fmt x (selectedPositions fmt x)
        (storePositions fmt x s.1, s.2) fmt.n).2) := by
    rw [← storeFourBit_eq hadm (s := (storePositions fmt x s.1, s.2)) hpositions, ← hs, ← hcleared]
    rfl
  have hrefined := refined_storeCodes x (p := selectedPositions fmt x)
    (s := (storePositions fmt x s.1, s.2)) (fun j hj => selectedValue_lt hadm x hj)
    (fun j hj => fieldOf_of_zero ((hother _ (Or.inr (Nat.le_add_right _ _))).trans
      ((hbehind _ (by omega)).trans (hqh j hj))))
    fmt.n (le_refl _)
  have htwo' : ∀ i < 128, fieldOf 2 4 0 (storePositions fmt x s.1) i =
      nearestCentroid2bit (x i) := by
    intro i hi
    rw [← htwo i hi]
    exact fieldOf_congr (hother _ (Or.inl (by omega)))
  rw [hrun]
  refine ⟨⟨fun i hi => ?_, fun slot hslot => ?_, fun j hj => ?_⟩, rfl, ?_⟩
  · rw [← htwo' i hi]
    exact fieldOf_congr (hrefined.low _ (by omega))
  · rw [← hpositions slot hslot]
    exact congrArg UInt8.toNat (hrefined.low _ (by omega))
  · have hcode := hrefined.codes j hj
    rwa [if_pos hj] at hcode
  · have hgain := sum_selectedValue (x := x) hadm fun i =>
      centroid4bitAt (nearestCentroid4bit (x i)) ^ 2 - centroid2bitAt (nearestCentroid2bit (x i)) ^ 2
    calc (storeCodes fmt x (selectedPositions fmt x) (storePositions fmt x s.1, s.2) fmt.n).2
        = s.2 + ∑ j ∈ Finset.range fmt.n,
            (centroid4bitAt (nearestCentroid4bit
                (x (fmt.selectedValue (selectedPositions fmt x) j))) ^ 2 -
              centroid2bitAt (nearestCentroid2bit
                (x (fmt.selectedValue (selectedPositions fmt x) j))) ^ 2) := by
          rw [hrefined.sum]
          refine congrArg (s.2 + ·) (Finset.sum_congr rfl fun j hj => ?_)
          rw [htwo' _ (selectedValue_lt hadm x (Finset.mem_range.mp hj))]
      _ = ∑ i ∈ Finset.range 128, storedCentroid fmt x i ^ 2 := by
          rw [hgain, hsumTwo, ← Finset.sum_add_distrib]
          refine Finset.sum_congr rfl fun i _ => ?_
          unfold storedCentroid
          split_ifs
          · ring
          · ring

/-- What the dequantiser returns for a block that holds `x`. -/
lemma dequantizeTurbo2m4Block_spec (hadm : fmt.Admissible) {b : Turbo2m4Block}
    (hb : Holds fmt x b.bytes) (half : UInt16 → ℚ) (y : ℕ → ℚ) {i : ℕ} (hi : i < 128) :
    dequantizeTurbo2m4Block fmt half b y i = half b.d * storedCentroid fmt x i := by
  have hqs : ∀ i < 128, readPart 2 (b.bytes (i / 4)) (i % 4) = nearestCentroid2bit (x i) := by
    intro i hi
    rw [← hb.twoBit i hi, fieldOf, Nat.zero_add]
  -- both modes are one loop over the codes
  have hrun : ∀ y : ℕ → ℚ, (if fmt.group then
      (List.range fmt.nPositions).foldl (fun y slot =>
        (List.range 4).foldl (fun y lane =>
          Function.update y (4 * (b.bytes (32 + slot)).toNat + lane)
            (half b.d * centroid4bitAt (readPart 4
              (b.bytes (32 + fmt.nPositions + (2 * slot + lane / 2))) (lane % 2)))) y) y
      else (List.range fmt.n).foldl (fun y slot =>
        Function.update y (b.bytes (32 + slot)).toNat
          (half b.d * centroid4bitAt (readPart 4 (b.bytes (32 + fmt.nPositions + slot / 2))
            (slot % 2)))) y) =
      (List.range fmt.n).foldl (fun y j =>
        Function.update y (fmt.selectedValue (selectedPositions fmt x) j)
          (half b.d * centroid4bitAt (fieldOf 4 2 (32 + fmt.nPositions) b.bytes j))) y := by
    intro y
    obtain ⟨-, hdvd⟩ := hadm
    by_cases hgroup : fmt.group = true
    · rw [if_pos hgroup] at hdvd ⊢
      have hn : fmt.n = fmt.nPositions * 4 := by
        rw [Turbo2m4Format.nPositions, if_pos hgroup, Nat.div_mul_cancel hdvd]
      rw [hn, foldl_range_mul]
      refine foldl_congr_of_inv (fun _ => True) (fun t slot hslot _ => ⟨?_, trivial⟩) trivial
      refine foldl_congr_of_inv (fun _ => True) (fun t lane hlane _ => ⟨?_, trivial⟩) trivial
      have hlane' := List.mem_range.mp hlane
      rw [hb.positions slot (List.mem_range.mp hslot), Turbo2m4Format.selectedValue, if_pos hgroup,
        fieldOf, show (4 * slot + lane) / 4 = slot by omega,
        show (4 * slot + lane) % 4 = lane by omega,
        show (4 * slot + lane) / 2 = 2 * slot + lane / 2 by omega,
        show (4 * slot + lane) % 2 = lane % 2 by omega]
    · rw [if_neg hgroup]
      have hn : fmt.nPositions = fmt.n := by rw [Turbo2m4Format.nPositions, if_neg hgroup]
      refine foldl_congr_of_inv (fun _ => True) (fun t slot hslot _ => ⟨?_, trivial⟩) trivial
      rw [hb.positions slot (hn ▸ List.mem_range.mp hslot), Turbo2m4Format.selectedValue,
        if_neg hgroup, fieldOf]
  change (if fmt.group then _ else _ : ℕ → ℚ) i = _
  rw [hrun, storedCentroid]
  split_ifs with hsel
  · refine foldl_update_of_mem (fmt.selectedValue (selectedPositions fmt x)) _
      (fun i => half b.d * centroid4bitAt (nearestCentroid4bit (x i))) (fun j hj => ?_) _ ?_
    · rw [hb.fourBit j (List.mem_range.mp hj)]
    · obtain ⟨j, hj, hji⟩ := (selectedValue_iff hadm x hi).mpr hsel
      exact ⟨j, List.mem_range.mpr hj, hji⟩
  · rw [foldl_update_of_not_mem]
    · refine foldl_update_of_mem id _ (fun i => half b.d * centroid2bitAt (nearestCentroid2bit (x i)))
        (fun j hj => ?_) y ⟨i, List.mem_range.mpr hi, rfl⟩
      rw [hqs j (List.mem_range.mp hj), id]
    · rintro ⟨j, hj, hji⟩
      exact hsel ((selectedValue_iff hadm x hi).mp ⟨j, List.mem_range.mp hj, hji⟩)

end RoundTrip

/-! ## Nearest centroids -/

lemma codebook2bit : Codebook centroids2bit thresholds2bit :=
  ⟨rfl, by decide +kernel, by decide +kernel⟩

lemma codebook4bit : Codebook centroids4bit thresholds4bit :=
  ⟨rfl, by decide +kernel, by decide +kernel⟩

lemma clear_twoBit (v : ℚ) : Clear centroids2bit thresholds2bit v := by
  have hmid : ∀ k < thresholds2bit.length, thresholds2bit.getD k 0 =
      (centroids2bit.getD k 0 + centroids2bit.getD (k + 1) 0) / (2 : ℕ) := by decide +kernel
  intro k hk
  rw [hmid k hk]
  exact ⟨id, le_of_lt⟩

/-- What the format promises: the stored positions are increasing, and no value or group that is
left out scores higher than a stored one; the decoder returns the norm times a nearest centroid,
from the four-bit centroids at the stored positions and from the two-bit ones elsewhere; and the
norm was computed from the sum of the squares of these centroids. -/
structure Turbo2m4Keeps (fmt : Turbo2m4Format) (x : ℕ → ℚ) (block : Turbo2m4Block) (reconSq : ℚ)
    (encodeNorm : ℚ → UInt16) (half : UInt16 → ℚ) (y : ℕ → ℚ) : Prop where
  increasing : ∀ s t, s < t → t < fmt.nPositions →
    (block.bytes (32 + s)).toNat < (block.bytes (32 + t)).toNat
  lt : ∀ s < fmt.nPositions, (block.bytes (32 + s)).toNat < fmt.count
  largest : ∀ s < fmt.nPositions, ∀ j < fmt.count,
    (∀ t < fmt.nPositions, (block.bytes (32 + t)).toNat ≠ j) →
      fmt.score x j ≤ fmt.score x (block.bytes (32 + s)).toNat
  norm : block.d = encodeNorm reconSq
  values : ∃ c : ℕ → ℚ, (∀ i < 128, dequantizeTurbo2m4Block fmt half block y i = half block.d * c i ∧
      IsNearest (if ∃ s < fmt.nPositions, (block.bytes (32 + s)).toNat = fmt.unit i
        then centroids4bit else centroids2bit) (x i) (c i)) ∧
    reconSq = ∑ i ∈ Finset.range 128, c i ^ 2

/-- The format keeps its promise for the block `x`, whatever the norm is stored as and whatever the
buffers held. -/
def Turbo2m4Right (fmt : Turbo2m4Format) (x : ℕ → ℚ) : Prop :=
  ∀ (encodeNorm : ℚ → UInt16) (half : UInt16 → ℚ) (bytes : ℕ → UInt8) (y : ℕ → ℚ),
    let r := quantizeTurbo2m4Block fmt x encodeNorm bytes
    Turbo2m4Keeps fmt x r.1 r.2 encodeNorm half y

section Nearest

variable {fmt : Turbo2m4Format} {x : ℕ → ℚ}

lemma Holds.exists_position_iff {bytes : ℕ → UInt8} (h : Holds fmt x bytes) (hadm : fmt.Admissible)
    {i : ℕ} (hi : i < fmt.count) :
    (∃ s < fmt.nPositions, (bytes (32 + s)).toNat = i) ↔
      rankOf (fmt.score x) fmt.count i < fmt.nPositions := by
  rw [← (selectedPositions_spec hadm x).2.2 i hi]
  constructor
  · rintro ⟨s, hs, hsi⟩
    exact ⟨s, hs, (h.positions s hs).symm.trans hsi⟩
  · rintro ⟨s, hs, hsi⟩
    exact ⟨s, hs, (h.positions s hs).trans hsi⟩

lemma isNearest_storedCentroid_iff (i : ℕ) :
    IsNearest (if fmt.Selects x i then centroids4bit else centroids2bit) (x i)
        (storedCentroid fmt x i) ↔
      (fmt.Selects x i → Clear centroids4bit thresholds4bit (x i)) := by
  unfold storedCentroid
  split_ifs with hsel
  · rw [forall_prop_of_true hsel]
    exact isNearest_firstAbove_iff codebook4bit (x i)
  · exact iff_of_true ((isNearest_firstAbove_iff codebook2bit (x i)).mpr (clear_twoBit _))
      (fun h => absurd h hsel)

lemma clear_of_right (hadm : fmt.Admissible) (h : Turbo2m4Right fmt x) {i : ℕ} (hi : i < 128)
    (hsel : fmt.Selects x i) : Clear centroids4bit thresholds4bit (x i) := by
  -- a norm of one shows the centroids themselves
  obtain ⟨c, hc, -⟩ := (h (fun _ => 0) (fun _ => 1) (fun _ => 0) (fun _ => 0)).values
  obtain ⟨hholds, -, -⟩ := quantizeTurbo2m4Block_spec (x := x) hadm (fun _ => 0) (fun _ => 0)
  obtain ⟨hvalue, hnearest⟩ := hc i hi
  rw [dequantizeTurbo2m4Block_spec hadm hholds _ _ hi, one_mul, one_mul] at hvalue
  rw [if_congr (hholds.exists_position_iff hadm (Turbo2m4Format.unit_lt hi)) rfl rfl,
    ← hvalue] at hnearest
  exact (isNearest_storedCentroid_iff i).mp hnearest hsel

lemma right_of_clear (hadm : fmt.Admissible)
    (h : ∀ i < 128, fmt.Selects x i → Clear centroids4bit thresholds4bit (x i)) :
    Turbo2m4Right fmt x := by
  intro encodeNorm half bytes y
  obtain ⟨hholds, hnorm, hsum⟩ := quantizeTurbo2m4Block_spec (x := x) hadm encodeNorm bytes
  obtain ⟨hsorted, hlt, hrank⟩ := selectedPositions_spec hadm x
  refine ⟨fun s t hst ht => ?_, fun s hs => ?_, fun s hs j hj hnot => ?_, hnorm,
    storedCentroid fmt x, fun i hi => ⟨dequantizeTurbo2m4Block_spec hadm hholds half y hi, ?_⟩, hsum⟩
  · rw [hholds.positions s (hst.trans ht), hholds.positions t ht]
    exact hsorted s t hst ht
  · rw [hholds.positions s hs]
    exact hlt s hs
  · rw [hholds.positions s hs]
    refine score_le_of_rankOf ((hrank _ (hlt s hs)).mp ⟨s, hs, rfl⟩) fun hsel => ?_
    obtain ⟨t, ht, htj⟩ := (hholds.exists_position_iff hadm hj).mpr hsel
    exact hnot t ht htj
  · rw [if_congr (hholds.exists_position_iff hadm (Turbo2m4Format.unit_lt hi)) rfl rfl]
    exact (isNearest_storedCentroid_iff i).mpr (h i hi)

end Nearest

/-- The format keeps its promise exactly when no selected value lies between a four-bit threshold
and the midpoint of the two centroids that it separates. -/
theorem turbo2m4_right_iff (fmt : Turbo2m4Format) (hadm : fmt.Admissible) (x : ℕ → ℚ) :
    Turbo2m4Right fmt x ↔
      ∀ i < 128, fmt.Selects x i → Clear centroids4bit thresholds4bit (x i) :=
  ⟨fun h _ hi hsel => clear_of_right hadm h hi hsel, right_of_clear hadm⟩

/-- It does so for the zero block. -/
theorem turbo2m4_right_zero : Turbo2m4Right ⟨4, false⟩ fun _ => 0 :=
  (turbo2m4_right_iff ⟨4, false⟩ (by decide) fun _ => 0).mpr fun _ _ _ => by decide +kernel

/-- A block with one value just below the threshold `0.162947f`. -/
def offMidpoint (i : ℕ) : ℚ := if i = 0 then 1629468 / 10 ^ 7 else 0

/-- The value is nearer to the centroid `0.182877f` than to `0.143016f`, which the block returns. -/
theorem not_turbo2m4_right_offMidpoint : ¬ Turbo2m4Right ⟨4, false⟩ offMidpoint := by
  intro h
  have hsel : (⟨4, false⟩ : Turbo2m4Format).Selects offMidpoint 0 := by decide +kernel
  have hclear := clear_of_right (by decide) h (Nat.zero_lt_succ 127) hsel
  exact absurd hclear (by decide +kernel)

end IFairy

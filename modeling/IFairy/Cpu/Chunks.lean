import IFairy.Framework.Loops

/-!
# Chunks of a matrix product

The workers of a matrix product draw chunks, rectangles of rows `ir0` of the weights and columns
`ir1` of the activations, and go through a chunk in tiles of `16 × 16`, one or two columns at a
time.  Whatever the remainders, the chunks hold every pair of a row and a column once
(`chunkPairs_perm`).
-/

namespace IFairy

/-- The rows and columns of a chunk. -/
structure ChunkBounds where
  ir0Start : ℕ
  ir0End : ℕ
  ir1Start : ℕ
  ir1End : ℕ

/-- `chunk_size`. -/
def chunkSize (nr0 nr1 : ℕ) : ℕ := if nr0 = 1 ∨ nr1 = 1 then 64 else 16

/-- `nchunk0` and `nchunk1`, after the plan is scrapped where it is poor. -/
def chunkGrid (nr0 nr1 nth : ℕ) (byThread : Bool) : ℕ × ℕ :=
  let nchunk0 := (nr0 + chunkSize nr0 nr1 - 1) / chunkSize nr0 nr1
  let nchunk1 := (nr1 + chunkSize nr0 nr1 - 1) / chunkSize nr0 nr1
  if nchunk0 * nchunk1 < nth * 4 ∨ byThread then
    (if nr1 < nr0 then nth else 1, if nr1 < nr0 then 1 else nth)
  else (nchunk0, nchunk1)

def chunkBounds (nr0 nr1 : ℕ) (grid : ℕ × ℕ) (chunk : ℕ) : ChunkBounds :=
  let dr0 := (nr0 + grid.1 - 1) / grid.1
  let dr1 := (nr1 + grid.2 - 1) / grid.2
  let ith0 := chunk % grid.1
  let ith1 := chunk / grid.1
  ⟨dr0 * ith0, min (dr0 * ith0 + dr0) nr0, dr1 * ith1, min (dr1 * ith1 + dr1) nr1⟩

/-- `num_rows_per_vec_dot`. -/
def numRowsPerVecDot (vecDotNumRows nr0 ne11 : ℕ) (b : ChunkBounds) : ℕ :=
  if nr0 % 2 ≠ 0 ∨ ne11 % 2 ≠ 0 ∨ (b.ir0End - b.ir0Start) % 2 ≠ 0 ∨
    (b.ir1End - b.ir1Start) % 2 ≠ 0 then 1
  else vecDotNumRows

/-- The loops over the tiles of a chunk. -/
def tiles {α : Type*} (num : ℕ) (b : ChunkBounds) (body : ℕ → ℕ → ℕ → List α) : List α :=
  if b.ir0End ≤ b.ir0Start ∨ b.ir1End ≤ b.ir1Start then []
  else
    (fromRange b.ir1Start b.ir1End 16).flatMap fun iir1 =>
      (fromRange b.ir0Start b.ir0End 16).flatMap fun iir0 =>
        (fromRange iir1 (min (iir1 + 16) b.ir1End) num).flatMap fun ir1 =>
          body iir0 (min (iir0 + 16) b.ir0End) ir1

/-- The rows and columns that one round of the tile loops stores. -/
def tilePairs (num iir0 ir0End ir1 : ℕ) : List (ℕ × ℕ) :=
  (List.range num).flatMap fun cn =>
    (List.range (ir0End - iir0)).map fun j => (iir0 + j, ir1 + cn)

/-! ## Inside a chunk -/

section Tiles

variable {num : ℕ} {b : ChunkBounds}

lemma map_tiles {α γ : Type*} (f : α → γ) (body : ℕ → ℕ → ℕ → List α) :
    (tiles num b body).map f = tiles num b fun iir0 ir0End ir1 =>
      (body iir0 ir0End ir1).map f := by
  unfold tiles
  split
  · rfl
  · simp only [List.map_flatMap]

lemma tiles_congr {α : Type*} {body body' : ℕ → ℕ → ℕ → List α} (hnum : num = 1 ∨ num = 2)
    (h : ∀ iir0 ir0End ir1, ir0End ≤ iir0 + 16 →
      ((b.ir0End - b.ir0Start) % num = 0 → (ir0End - iir0) % num = 0) →
      b.ir1Start ≤ ir1 → (ir1 - b.ir1Start) % num = 0 → ir1 < b.ir1End →
      body iir0 ir0End ir1 = body' iir0 ir0End ir1) :
    tiles num b body = tiles num b body' := by
  unfold tiles
  split
  · rfl
  · refine List.flatMap_congr fun iir1 hiir1 => List.flatMap_congr fun iir0 hiir0 =>
      List.flatMap_congr fun ir1 hir1 => ?_
    have hiir1 := (mem_fromRange (by decide)).1 hiir1
    have hiir0 := (mem_fromRange (by decide)).1 hiir0
    have hir1 := (mem_fromRange (by omega)).1 hir1
    rcases hnum with rfl | rfl
    · exact h _ _ _ (min_le_left _ _) (fun _ => Nat.mod_one _) (by omega) (Nat.mod_one _) (by omega)
    · exact h _ _ _ (min_le_left _ _) (by omega) (by omega) (by omega) (by omega)

lemma mem_tilePairs {iir0 ir0End ir1 : ℕ} {x : ℕ × ℕ} :
    x ∈ tilePairs num iir0 ir0End ir1 ↔
      (iir0 ≤ x.1 ∧ x.1 < ir0End) ∧ ir1 ≤ x.2 ∧ x.2 < ir1 + num := by
  simp only [tilePairs, List.mem_flatMap, List.mem_map, List.mem_range]
  constructor
  · rintro ⟨cn, hcn, j, hj, rfl⟩
    simp only
    omega
  · rintro ⟨⟨hlo, hhi⟩, hlo', hhi'⟩
    exact ⟨x.2 - ir1, by omega, x.1 - iir0, by omega, Prod.ext (by simp only; omega)
      (by simp only; omega)⟩

lemma nodup_tilePairs (iir0 ir0End ir1 : ℕ) : (tilePairs num iir0 ir0End ir1).Nodup := by
  refine nodup_flatMap_of_owner (fun x => x.2 - ir1) List.nodup_range (fun cn _ => ?_) ?_
  · exact List.nodup_range.map fun i j h => Nat.add_left_cancel (Prod.ext_iff.1 h).1
  · intro cn _ x hx
    obtain ⟨j, -, rfl⟩ := List.mem_map.1 hx
    simp only
    omega

lemma mem_tiles (hnum : num = 1 ∨ num = 2 ∧ (b.ir1End - b.ir1Start) % 2 = 0) {x : ℕ × ℕ} :
    x ∈ tiles num b (tilePairs num) ↔
      (b.ir0Start ≤ x.1 ∧ x.1 < b.ir0End) ∧ b.ir1Start ≤ x.2 ∧ x.2 < b.ir1End := by
  have hpos : 0 < num := by omega
  unfold tiles
  split
  · rename_i hempty
    simp only [List.not_mem_nil, false_iff]
    omega
  · simp only [List.mem_flatMap, mem_tilePairs, mem_fromRange hpos,
      mem_fromRange (show 0 < 16 by decide)]
    constructor
    · rintro ⟨iir1, hiir1, iir0, hiir0, ir1, hir1, hx0, hx1⟩
      rcases hnum with rfl | ⟨rfl, heven⟩ <;> omega
    · rintro ⟨hx0, hx1⟩
      refine ⟨b.ir1Start + (x.2 - b.ir1Start) / 16 * 16, ⟨by omega, by omega, by omega⟩,
        b.ir0Start + (x.1 - b.ir0Start) / 16 * 16, ⟨by omega, by omega, by omega⟩,
        b.ir1Start + (x.2 - b.ir1Start) / num * num, ?_⟩
      rcases hnum with rfl | ⟨rfl, heven⟩
      · exact ⟨⟨by omega, by omega, by omega⟩, by omega, by omega⟩
      · exact ⟨⟨by omega, by omega, by omega⟩, by omega, by omega⟩

lemma nodup_tiles (hnum : num = 1 ∨ num = 2) : (tiles num b (tilePairs num)).Nodup := by
  have hpos : 0 < num := by omega
  unfold tiles
  split
  · exact List.nodup_nil
  · refine nodup_flatMap_of_owner (fun x => b.ir1Start + (x.2 - b.ir1Start) / 16 * 16)
      (nodup_fromRange (by decide)) (fun iir1 _ => ?_) ?_
    · refine nodup_flatMap_of_owner (fun x => b.ir0Start + (x.1 - b.ir0Start) / 16 * 16)
        (nodup_fromRange (by decide)) (fun iir0 _ => ?_) ?_
      · refine nodup_flatMap_of_owner (fun x => iir1 + (x.2 - iir1) / num * num)
          (nodup_fromRange hpos) (fun ir1 _ => nodup_tilePairs _ _ _) fun ir1 hir1 x hx => ?_
        have hir1 := (mem_fromRange hpos).1 hir1
        have hx := mem_tilePairs.1 hx
        rcases hnum with rfl | rfl <;> omega
      · intro iir0 hiir0 x hx
        have hiir0 := (mem_fromRange (by decide)).1 hiir0
        obtain ⟨ir1, -, hx⟩ := List.mem_flatMap.1 hx
        have hx := mem_tilePairs.1 hx
        omega
    · intro iir1 hiir1 x hx
      have hiir1 := (mem_fromRange (by decide)).1 hiir1
      obtain ⟨iir0, -, hx⟩ := List.mem_flatMap.1 hx
      obtain ⟨ir1, hir1, hx⟩ := List.mem_flatMap.1 hx
      have hir1 := (mem_fromRange hpos).1 hir1
      have hx := mem_tilePairs.1 hx
      rcases hnum with rfl | rfl <;> omega

end Tiles

/-! ## The chunks together -/

section Grid

variable {nr0 nr1 nth : ℕ}

lemma chunkGrid_pos (hnth : 0 < nth) (nr0 nr1 : ℕ) (byThread : Bool) :
    0 < (chunkGrid nr0 nr1 nth byThread).1 ∧ 0 < (chunkGrid nr0 nr1 nth byThread).2 := by
  unfold chunkGrid
  simp only
  split
  · constructor <;> simp only <;> split <;> omega
  · rename_i hplan
    rw [not_or, not_lt] at hplan
    have hne := Nat.mul_ne_zero_iff.1 (lt_of_lt_of_le (show 0 < nth * 4 by omega) hplan.1).ne'
    exact ⟨Nat.pos_of_ne_zero hne.1, Nat.pos_of_ne_zero hne.2⟩

/-- Pieces of the rounded-up length hold every number below `n` in one of them. -/
lemma ceil_split {n pieces i : ℕ} (hpieces : 0 < pieces) (hi : i < n) :
    i / ((n + pieces - 1) / pieces) < pieces ∧
      (n + pieces - 1) / pieces * (i / ((n + pieces - 1) / pieces)) ≤ i ∧
      i < (n + pieces - 1) / pieces * (i / ((n + pieces - 1) / pieces)) +
        (n + pieces - 1) / pieces := by
  have hceil : n ≤ (n + pieces - 1) / pieces * pieces := by
    have h := Nat.div_add_mod (n + pieces - 1) pieces
    have hmod := Nat.mod_lt (n + pieces - 1) hpieces
    rw [Nat.mul_comm] at h
    omega
  have hpos : 0 < (n + pieces - 1) / pieces := by
    by_contra hzero
    rw [Nat.eq_zero_of_not_pos hzero, Nat.zero_mul] at hceil
    omega
  refine ⟨(Nat.div_lt_iff_lt_mul hpos).2 ?_, Nat.mul_div_le _ _, ?_⟩
  · rw [Nat.mul_comm]
    exact lt_of_lt_of_le hi hceil
  · have h := Nat.div_add_mod i ((n + pieces - 1) / pieces)
    have hmod := Nat.mod_lt i hpos
    omega

lemma chunk_unique {grid : ℕ × ℕ} {chunk : ℕ} {x : ℕ × ℕ}
    (h0 : (chunkBounds nr0 nr1 grid chunk).ir0Start ≤ x.1 ∧
      x.1 < (chunkBounds nr0 nr1 grid chunk).ir0End)
    (h1 : (chunkBounds nr0 nr1 grid chunk).ir1Start ≤ x.2 ∧
      x.2 < (chunkBounds nr0 nr1 grid chunk).ir1End) :
    x.1 / ((nr0 + grid.1 - 1) / grid.1) + grid.1 * (x.2 / ((nr1 + grid.2 - 1) / grid.2)) =
      chunk := by
  have hquot : ∀ {d q y : ℕ}, d * q ≤ y → y < d * q + d → y / d = q := by
    intro d q y hlo hhi
    obtain ⟨r, rfl⟩ := Nat.exists_eq_add_of_le hlo
    rw [Nat.mul_add_div (by omega), Nat.div_eq_of_lt (by omega), Nat.add_zero]
  rw [hquot h0.1 (lt_of_lt_of_le h0.2 (min_le_left _ _)),
    hquot h1.1 (lt_of_lt_of_le h1.2 (min_le_left _ _)), Nat.mod_add_div]

/-- The pairs of rows and columns of all chunks, in the order of the chunks. -/
def chunkPairs (nr0 nr1 : ℕ) (grid : ℕ × ℕ) (num : ChunkBounds → ℕ) : List (ℕ × ℕ) :=
  (List.range (grid.1 * grid.2)).flatMap fun chunk =>
    let b := chunkBounds nr0 nr1 grid chunk
    tiles (num b) b (tilePairs (num b))

def allPairs (nr0 nr1 : ℕ) : List (ℕ × ℕ) :=
  (List.range nr1).flatMap fun ir1 => (List.range nr0).map fun ir0 => (ir0, ir1)

lemma mem_allPairs {x : ℕ × ℕ} : x ∈ allPairs nr0 nr1 ↔ x.1 < nr0 ∧ x.2 < nr1 := by
  simp only [allPairs, List.mem_flatMap, List.mem_map, List.mem_range]
  constructor
  · rintro ⟨ir1, hir1, ir0, hir0, rfl⟩
    exact ⟨hir0, hir1⟩
  · rintro ⟨hx0, hx1⟩
    exact ⟨x.2, hx1, x.1, hx0, rfl⟩

lemma nodup_allPairs (nr0 nr1 : ℕ) : (allPairs nr0 nr1).Nodup := by
  refine nodup_flatMap_of_owner Prod.snd List.nodup_range
    (fun ir1 _ => List.nodup_range.map fun i j h => (Prod.ext_iff.1 h).1) ?_
  intro ir1 _ x hx
  obtain ⟨ir0, -, rfl⟩ := List.mem_map.1 hx
  rfl

theorem chunkPairs_perm {grid : ℕ × ℕ} (hgrid : 0 < grid.1 ∧ 0 < grid.2)
    {num : ChunkBounds → ℕ}
    (hnum : ∀ b, num b = 1 ∨ num b = 2 ∧ (b.ir1End - b.ir1Start) % 2 = 0) :
    (chunkPairs nr0 nr1 grid num).Perm (allPairs nr0 nr1) := by
  have hnodup : (chunkPairs nr0 nr1 grid num).Nodup := by
    refine nodup_flatMap_of_owner
      (fun x => x.1 / ((nr0 + grid.1 - 1) / grid.1) +
        grid.1 * (x.2 / ((nr1 + grid.2 - 1) / grid.2)))
      List.nodup_range (fun chunk _ => nodup_tiles ((hnum _).imp_right And.left)) ?_
    intro chunk _ x hx
    obtain ⟨h0, h1⟩ := (mem_tiles (hnum _)).1 hx
    exact chunk_unique h0 h1
  rw [List.perm_ext_iff_of_nodup hnodup (nodup_allPairs nr0 nr1)]
  intro x
  rw [mem_allPairs, chunkPairs, List.mem_flatMap]
  constructor
  · rintro ⟨chunk, -, hx⟩
    obtain ⟨h0, h1⟩ := (mem_tiles (hnum _)).1 hx
    exact ⟨lt_of_lt_of_le h0.2 (min_le_right _ _), lt_of_lt_of_le h1.2 (min_le_right _ _)⟩
  · rintro ⟨hx0, hx1⟩
    obtain ⟨hpiece0, hlo0, hhi0⟩ := ceil_split hgrid.1 hx0
    obtain ⟨hpiece1, hlo1, hhi1⟩ := ceil_split hgrid.2 hx1
    refine ⟨x.1 / ((nr0 + grid.1 - 1) / grid.1) +
        grid.1 * (x.2 / ((nr1 + grid.2 - 1) / grid.2)), List.mem_range.2 ?_,
      (mem_tiles (hnum _)).2 ?_⟩
    · have hle := Nat.mul_le_mul_left grid.1 (Nat.succ_le_of_lt hpiece1)
      rw [Nat.mul_succ] at hle
      omega
    · simp only [chunkBounds, Nat.add_mul_mod_self_left, Nat.mod_eq_of_lt hpiece0,
        Nat.add_mul_div_left _ _ hgrid.1, Nat.div_eq_of_lt hpiece0, Nat.zero_add]
      exact ⟨⟨hlo0, lt_min hhi0 hx0⟩, hlo1, lt_min hhi1 hx1⟩

end Grid

end IFairy

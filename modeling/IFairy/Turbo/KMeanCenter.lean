import Mathlib.Algebra.Order.Ring.Rat
import Mathlib.Tactic.FieldSimp
import IFairy.Framework.Loops
import IFairy.Framework.Schedules

/-!
# Centring the keys

`ggml_compute_forward_turbo_k_mean_center` subtracts from the keys of a stream the mean of its first
`warmup` keys.  The running sum and the number of keys in it are kept in one row per stream.  The
threads share the features of the active streams; after a barrier the first thread writes the
counts.

A job is one feature of one active stream.  It is one step of its thread here: no other job touches
its sum or its outputs, and the counts do not change before the barrier.  Arithmetic is exact.
-/

namespace IFairy

/-! ## The operation -/

/-- The tensors that the operation writes: `sum`, with a row of `n_features + 1` entries for each
stream, and `dst`, with an entry for each token and feature. -/
structure KMeanMemory where
  sum : ℕ × ℕ → ℚ
  dst : ℕ × ℕ → ℚ

/-- The sources and parameters of a node. -/
structure KMeanNode where
  warmup : ℕ
  centerWarmup : Bool
  kvSize : ℕ
  nSeqTokens : ℕ
  nFeatures : ℕ
  nActiveStreams : ℕ
  src : ℕ → ℕ → ℚ
  index : ℕ → ℕ

/-- The conversion of a `float` to an integer. -/
def truncToInt (v : ℚ) : ℤ := v.num.tdiv v.den

namespace KMeanNode

variable (c : KMeanNode)

/-- The stream that an active stream's tokens are stored in. -/
def stream (activeStream : ℕ) : ℕ := c.index (activeStream * c.nSeqTokens) / c.kvSize

/-- `old_count`, from the entry of the row that holds the count. -/
def oldCount (count : ℚ) : ℕ := (max 0 (min (c.warmup : ℤ) (truncToInt count))).toNat

/-- `effective_warmup`. -/
def effectiveWarmup (oldCount : ℕ) : ℕ :=
  if c.centerWarmup && decide (0 < oldCount) then oldCount
  else if c.centerWarmup then min c.warmup c.nSeqTokens
  else c.warmup

/-- `take`. -/
def take (oldCount : ℕ) : ℕ := min (c.effectiveWarmup oldCount - oldCount) c.nSeqTokens

/-- `acc`: the old sum of a feature with the new keys that count. -/
def acc (tokenBegin feature oldCount : ℕ) (sum : ℚ) : ℚ :=
  (fromRange tokenBegin (tokenBegin + c.take oldCount) 1).foldl (fun acc it =>
    if it < tokenBegin + c.nSeqTokens then acc + c.src it feature else acc)
    (if oldCount = 0 then 0 else sum)

/-- The output for token `it`. -/
def output (tokenBegin feature oldCount : ℕ) (acc : ℚ) (it : ℕ) : ℚ :=
  let take := c.take oldCount
  let complete := oldCount + take = c.effectiveWarmup oldCount
  let value := c.src it feature
  if complete ∧ (c.centerWarmup = true ∨ tokenBegin + take ≤ it) then
    value - acc / c.effectiveWarmup oldCount
  else value

def centerJob (m : KMeanMemory) (job : ℕ) : KMeanMemory :=
  let activeStream := job / c.nFeatures
  let feature := job % c.nFeatures
  let tokenBegin := activeStream * c.nSeqTokens
  let tokenEnd := tokenBegin + c.nSeqTokens
  let stream := c.stream activeStream
  let oldCount := c.oldCount (m.sum (stream, c.nFeatures))
  let acc := c.acc tokenBegin feature oldCount (m.sum (stream, feature))
  { sum := Function.update m.sum (stream, feature) acc
    dst := (fromRange tokenBegin tokenEnd 1).foldl (fun dst it =>
      Function.update dst (it, feature) (c.output tokenBegin feature oldCount acc it)) m.dst }

/-- What the first thread does after the barrier. -/
def updateCounts (m : KMeanMemory) : KMeanMemory :=
  (List.range c.nActiveStreams).foldl (fun m activeStream =>
    let stream := c.stream activeStream
    let oldCount := c.oldCount (m.sum (stream, c.nFeatures))
    { m with sum := Function.update m.sum (stream, c.nFeatures) (oldCount + c.take oldCount : ℕ) }) m

/-- `n_jobs`. -/
def nJobs : ℕ := c.nFeatures * c.nActiveStreams

/-- `ggml_compute_forward_turbo_k_mean_center`: the memory that `nth` threads can leave. -/
def Computes (nth : ℕ) (m m' : KMeanMemory) : Prop :=
  ∃ s, PoolReachable (ranged nth fun ith => c.nJobs * ith / nth) (fun job => [job]) s ∧ s.Done ∧
    m' = c.updateCounts (s.log.foldl c.centerJob m)

/-! ## Jobs -/

/-- The streams are different: their tokens are stored in different parts of the cache. -/
def StreamsApart : Prop :=
  ∀ a < c.nActiveStreams, ∀ b < c.nActiveStreams, c.stream a = c.stream b → a = b

variable {c}

lemma take_le (oldCount : ℕ) : c.take oldCount ≤ c.nSeqTokens := min_le_right _ _

lemma acc_eq (tokenBegin feature oldCount : ℕ) (sum : ℚ) :
    c.acc tokenBegin feature oldCount sum = (if oldCount = 0 then 0 else sum) +
      ∑ i ∈ Finset.range (c.take oldCount), c.src (tokenBegin + i) feature := by
  have htake := take_le (c := c) oldCount
  have hloop : c.acc tokenBegin feature oldCount sum =
      (List.range (c.take oldCount)).foldl (fun acc i => acc + c.src (tokenBegin + i) feature)
        (if oldCount = 0 then 0 else sum) := by
    rw [acc, fromRange, Nat.add_sub_cancel_left, stepRange, Nat.add_sub_cancel, Nat.div_one,
      List.map_map, List.foldl_map]
    refine foldl_congr_of_inv (fun _ => True) (fun acc i hi _ => ⟨?_, trivial⟩) trivial
    have hi' := List.mem_range.mp hi
    simp only [Function.comp_apply, Nat.one_mul]
    rw [if_pos (by omega)]
  rw [hloop]
  exact foldl_accumulate _ id _ _ (fun s i _ => rfl) _

/-- The outputs of a job, and nothing else, are written to `dst`. -/
lemma centerJob_dst (m : KMeanMemory) (job token feature : ℕ) :
    (c.centerJob m job).dst (token, feature) =
      if job / c.nFeatures * c.nSeqTokens ≤ token ∧
          token < job / c.nFeatures * c.nSeqTokens + c.nSeqTokens ∧ feature = job % c.nFeatures then
        let stream := c.stream (job / c.nFeatures)
        let oldCount := c.oldCount (m.sum (stream, c.nFeatures))
        c.output (job / c.nFeatures * c.nSeqTokens) feature oldCount
          (c.acc (job / c.nFeatures * c.nSeqTokens) feature oldCount (m.sum (stream, feature))) token
      else m.dst (token, feature) := by
  split_ifs with h
  · obtain ⟨hle, hlt, rfl⟩ := h
    refine foldl_update_of_mem (fun it => (it, job % c.nFeatures)) _
      (fun cell => c.output _ _ _ _ cell.1) (fun it _ => rfl) m.dst ⟨token, ?_, rfl⟩
    exact (mem_fromRange Nat.one_pos).mpr ⟨hle, hlt, one_dvd _⟩
  · refine foldl_update_of_not_mem (fun it => (it, job % c.nFeatures)) _ m.dst ?_
    rintro ⟨it, hit, heq⟩
    obtain ⟨rfl, rfl⟩ := Prod.mk.inj heq
    obtain ⟨hle, hlt, -⟩ := (mem_fromRange Nat.one_pos).mp hit
    exact h ⟨hle, hlt, rfl⟩

lemma centerJob_sum_of_ne {m : KMeanMemory} {job : ℕ} {cell : ℕ × ℕ}
    (h : cell ≠ (c.stream (job / c.nFeatures), job % c.nFeatures)) :
    (c.centerJob m job).sum cell = m.sum cell := Function.update_of_ne h _ _

/-- The job of a feature of an active stream. -/
def jobOf (c : KMeanNode) (activeStream feature : ℕ) : ℕ := activeStream * c.nFeatures + feature

section Phases

variable {m m' : KMeanMemory} {a f : ℕ}

lemma jobOf_spec (hf : f < c.nFeatures) :
    c.jobOf a f / c.nFeatures = a ∧ c.jobOf a f % c.nFeatures = f := mul_add_div_mod hf

lemma jobOf_lt (ha : a < c.nActiveStreams) (hf : f < c.nFeatures) : c.jobOf a f < c.nJobs := by
  have hrow : (a + 1) * c.nFeatures ≤ c.nActiveStreams * c.nFeatures := Nat.mul_le_mul_right _ ha
  rw [jobOf, nJobs, Nat.mul_comm c.nFeatures]
  rw [Nat.add_mul] at hrow
  omega

/-- What belongs to a job: its sum, the count that it reads and its outputs. -/
def jobView (c : KMeanNode) (a f : ℕ) (m : KMeanMemory) : ℚ × ℚ × (ℕ → ℚ) :=
  (m.sum (c.stream a, f), m.sum (c.stream a, c.nFeatures),
    fun i => if i < c.nSeqTokens then m.dst (a * c.nSeqTokens + i, f) else 0)

def jobResult (c : KMeanNode) (a f : ℕ) (v : ℚ × ℚ × (ℕ → ℚ)) : ℚ × ℚ × (ℕ → ℚ) :=
  let oldCount := c.oldCount v.2.1
  let acc := c.acc (a * c.nSeqTokens) f oldCount v.1
  (acc, v.2.1, fun i => if i < c.nSeqTokens then
    c.output (a * c.nSeqTokens) f oldCount acc (a * c.nSeqTokens + i) else 0)

lemma jobView_own (hf : f < c.nFeatures) (m : KMeanMemory) :
    c.jobView a f (c.centerJob m (c.jobOf a f)) = c.jobResult a f (c.jobView a f m) := by
  obtain ⟨hdiv, hmod⟩ := jobOf_spec (c := c) (a := a) hf
  refine Prod.ext ?_ (Prod.ext ?_ (funext fun i => ?_))
  · simp only [jobView, jobResult, centerJob, hdiv, hmod]
    exact Function.update_self _ _ _
  · refine centerJob_sum_of_ne ?_
    rw [hdiv, hmod]
    intro h
    exact absurd (Prod.mk.inj h).2 (Nat.ne_of_gt hf)
  · simp only [jobView, jobResult]
    split_ifs with hi
    · rw [centerJob_dst, hdiv, hmod, if_pos ⟨Nat.le_add_right _ _, Nat.add_lt_add_left hi _, rfl⟩]
    · rfl

lemma jobView_other (hapart : c.StreamsApart) (ha : a < c.nActiveStreams) (hf : f < c.nFeatures)
    {job : ℕ} (hjob : job < c.nJobs) (hne : job ≠ c.jobOf a f) (m : KMeanMemory) :
    c.jobView a f (c.centerJob m job) = c.jobView a f m := by
  have hpos : 0 < c.nFeatures := Nat.zero_lt_of_lt hf
  have hmod := Nat.mod_lt job hpos
  have hactive : job / c.nFeatures < c.nActiveStreams := Nat.div_lt_of_lt_mul hjob
  have heq : ∀ {a' f'}, job / c.nFeatures = a' → job % c.nFeatures = f' → job = c.jobOf a' f' := by
    rintro a' f' rfl rfl
    exact (Nat.div_add_mod' job c.nFeatures).symm
  refine Prod.ext ?_ (Prod.ext ?_ (funext fun i => ?_))
  · refine centerJob_sum_of_ne fun h => hne ?_
    obtain ⟨hstream, hfeature⟩ := Prod.mk.inj h
    exact heq (hapart _ hactive _ ha hstream.symm) hfeature.symm
  · refine centerJob_sum_of_ne fun h => ?_
    have := (Prod.mk.inj h).2
    omega
  · simp only [jobView]
    split_ifs with hi
    · rw [centerJob_dst, if_neg]
      rintro ⟨hle, hlt, hfeature⟩
      refine hne (heq ?_ hfeature.symm)
      rcases Nat.lt_trichotomy (job / c.nFeatures) a with hlt' | heq' | hgt
      · have := Nat.mul_le_mul_right c.nSeqTokens (Nat.succ_le_of_lt hlt')
        rw [Nat.succ_mul] at this
        omega
      · exact heq'
      · have := Nat.mul_le_mul_right c.nSeqTokens (Nat.succ_le_of_lt hgt)
        rw [Nat.succ_mul] at this
        omega
    · rfl

lemma log_perm {nth : ℕ} (hnth : 0 < nth) {s : PoolState nth (Fin nth → ℕ) ℕ}
    (hs : PoolReachable (ranged nth fun ith => c.nJobs * ith / nth) (fun job => [job]) s)
    (hdone : s.Done) : s.log.Perm (List.range c.nJobs) := by
  have hmono : Monotone fun ith => c.nJobs * ith / nth := fun i j hij =>
    Nat.div_le_div_right (Nat.mul_le_mul_left _ hij)
  have hlast : c.nJobs * nth / nth = c.nJobs := Nat.mul_div_cancel _ hnth
  have law : (ranged nth fun ith => c.nJobs * ith / nth).Law (c.nJobs * nth / nth) :=
    rangedLaw (by simp) hmono
  rw [hlast] at law
  rw [← Multiset.coe_eq_coe, hs.log_eq law hdone, sum_range_coe_eq_flatMap, List.flatMap_singleton']

lemma jobView_foldl (hapart : c.StreamsApart) {log : List ℕ} (hlog : log.Perm (List.range c.nJobs))
    (ha : a < c.nActiveStreams) (hf : f < c.nFeatures) :
    c.jobView a f (log.foldl c.centerJob m) = c.jobResult a f (c.jobView a f m) :=
  foldl_read_once c.centerJob (c.jobView a f) (hlog.nodup_iff.mpr List.nodup_range)
    (hlog.mem_iff.mpr (List.mem_range.mpr (jobOf_lt ha hf))) (c.jobResult a f) (jobView_own hf)
    (fun _ hjob hne => jobView_other hapart ha hf (List.mem_range.mp (hlog.mem_iff.mp hjob)) hne) m

lemma sum_foldl_of_ne {log : List ℕ} (hlog : log.Perm (List.range c.nJobs)) {stream f : ℕ}
    (h : (∀ b < c.nActiveStreams, c.stream b ≠ stream) ∨ f = c.nFeatures) :
    (log.foldl c.centerJob m).sum (stream, f) = m.sum (stream, f) := by
  refine foldl_read_of_not_cover c.centerJob (fun m => m.sum (stream, f)) (fun job hjob m => ?_) m
  have hlt := List.mem_range.mp (hlog.mem_iff.mp hjob)
  have hpos : 0 < c.nFeatures := Nat.pos_of_ne_zero fun h0 => by simp [nJobs, h0] at hlt
  refine centerJob_sum_of_ne fun heq => ?_
  obtain ⟨hstream, hfeature⟩ := Prod.mk.inj heq
  rcases h with hnot | hcount
  · exact hnot _ (Nat.div_lt_of_lt_mul hlt) hstream.symm
  · have := Nat.mod_lt job hpos
    omega

lemma updateCounts_spec (hapart : c.StreamsApart) (m : KMeanMemory) :
    (∀ a < c.nActiveStreams, (c.updateCounts m).sum (c.stream a, c.nFeatures) =
      (c.oldCount (m.sum (c.stream a, c.nFeatures)) +
        c.take (c.oldCount (m.sum (c.stream a, c.nFeatures))) : ℕ)) ∧
    (∀ stream f, (∀ b < c.nActiveStreams, c.stream b ≠ stream) ∨ f ≠ c.nFeatures →
      (c.updateCounts m).sum (stream, f) = m.sum (stream, f)) ∧
    (c.updateCounts m).dst = m.dst := by
  refine ⟨fun a ha => ?_, fun stream f h => ?_, ?_⟩
  · refine foldl_read_once _ (fun m : KMeanMemory => m.sum (c.stream a, c.nFeatures))
      List.nodup_range (List.mem_range.mpr ha)
      (fun v => (c.oldCount v + c.take (c.oldCount v) : ℕ)) (fun m => ?_) (fun b hb hne m => ?_) m
    · exact Function.update_self _ _ _
    · refine Function.update_of_ne (fun heq => hne ?_) _ _
      exact (hapart a ha b (List.mem_range.mp hb) (Prod.mk.inj heq).1).symm
  · refine foldl_read_of_not_cover _ (fun m : KMeanMemory => m.sum (stream, f)) (fun b hb m => ?_) m
    refine Function.update_of_ne (fun heq => ?_) _ _
    obtain ⟨hstream, hfeature⟩ := Prod.mk.inj heq
    rcases h with hnot | hne
    · exact hnot b (List.mem_range.mp hb) hstream.symm
    · exact hne hfeature
  · refine foldl_read_of_not_cover _ KMeanMemory.dst (fun b _ m => ?_) m
    rfl

lemma Computes.spec {nth : ℕ} (hnth : 0 < nth) (hapart : c.StreamsApart)
    (h : c.Computes nth m m') :
    (∀ a < c.nActiveStreams,
      let oldCount := c.oldCount (m.sum (c.stream a, c.nFeatures))
      m'.sum (c.stream a, c.nFeatures) = (oldCount + c.take oldCount : ℕ) ∧
      ∀ f < c.nFeatures,
        let acc := c.acc (a * c.nSeqTokens) f oldCount (m.sum (c.stream a, f))
        m'.sum (c.stream a, f) = acc ∧
        ∀ i < c.nSeqTokens, m'.dst (a * c.nSeqTokens + i, f) =
          c.output (a * c.nSeqTokens) f oldCount acc (a * c.nSeqTokens + i)) ∧
    ∀ stream, (∀ b < c.nActiveStreams, c.stream b ≠ stream) →
      ∀ f, m'.sum (stream, f) = m.sum (stream, f) := by
  obtain ⟨s, hs, hdone, rfl⟩ := h
  have hlog := log_perm hnth hs hdone
  obtain ⟨hcounts, hkeep, hdst⟩ := updateCounts_spec hapart (s.log.foldl c.centerJob m)
  refine ⟨fun a ha => ⟨?_, fun f hf => ?_⟩, fun stream hstream f => ?_⟩
  · rw [hcounts a ha, sum_foldl_of_ne hlog (Or.inr rfl)]
  · have hview := jobView_foldl (m := m) hapart hlog ha hf
    refine ⟨?_, fun i hi => ?_⟩
    · rw [hkeep _ _ (Or.inr (Nat.ne_of_lt hf))]
      exact congrArg Prod.fst hview
    · have hout := congrFun (congrArg (fun v => v.2.2) hview) i
      simp only [jobView, jobResult, if_pos hi] at hout
      rw [hdst]
      exact hout
  · rw [hkeep _ _ (Or.inl hstream), sum_foldl_of_ne hlog (Or.inl hstream)]

end Phases

lemma exists_computes (c : KMeanNode) (nth : ℕ) (m : KMeanMemory) :
    ∃ m', c.Computes nth m m' := by
  have hmono : Monotone fun ith => c.nJobs * ith / nth := fun i j hij =>
    Nat.div_le_div_right (Nat.mul_le_mul_left _ hij)
  have law : (ranged nth fun ith => c.nJobs * ith / nth).Law (c.nJobs * nth / nth) :=
    rangedLaw (by simp) hmono
  have hstart : PoolReachable (ranged nth fun ith => c.nJobs * ith / nth) (fun job => [job])
      (ranged nth fun ith => c.nJobs * ith / nth).start := .refl
  obtain ⟨s, hs, hdone⟩ := hstart.exists_done law
  exact ⟨_, s, hs, hdone, rfl⟩

end KMeanNode

/-! ## Streams of keys -/

section Streams

variable (W nFeatures : ℕ) (x : ℕ → ℕ → ℕ → ℚ)

/-- The node of a ubatch that brings, for each active stream, the next `n_seq_tokens` keys of the
stream: `seen` is how many keys each stream has had, `x stream t` is key `t` of a stream. -/
structure NextUbatch (seen : ℕ → ℕ) (c : KMeanNode) : Prop where
  warmup : c.warmup = W
  centerWarmup : c.centerWarmup = false
  features : c.nFeatures = nFeatures
  apart : c.StreamsApart
  keys : ∀ a < c.nActiveStreams, ∀ i < c.nSeqTokens, ∀ f < nFeatures,
    c.src (a * c.nSeqTokens + i) f = x (c.stream a) (seen (c.stream a) + i) f

/-- The keys that the streams have had after a ubatch. -/
def KMeanNode.seenAfter (c : KMeanNode) (seen : ℕ → ℕ) (stream : ℕ) : ℕ :=
  if ∃ a < c.nActiveStreams, c.stream a = stream then seen stream + c.nSeqTokens else seen stream

/-- The sums and the numbers of keys that runs lead to: the counts are zero at first, and every
ubatch runs on some number of threads, with any old contents of its output. -/
inductive KMeanRun : (ℕ × ℕ → ℚ) → (ℕ → ℕ) → Prop
  | start {sum : ℕ × ℕ → ℚ} (h : ∀ stream, sum (stream, nFeatures) = 0) :
      KMeanRun sum fun _ => 0
  | ubatch {m m' : KMeanMemory} {seen : ℕ → ℕ} {c : KMeanNode} {nth : ℕ}
      (hrun : KMeanRun m.sum seen) (hnext : NextUbatch W nFeatures x seen c) (hnth : 0 < nth)
      (hcomputes : c.Computes nth m m') : KMeanRun m'.sum (c.seenAfter seen)

/-- The count of a row is the number of keys up to the warm-up, and its sums are their sums. -/
def KMeanInv (sum : ℕ × ℕ → ℚ) (seen : ℕ → ℕ) : Prop :=
  ∀ stream, sum (stream, nFeatures) = (min W (seen stream) : ℕ) ∧
    ∀ f < nFeatures, 0 < seen stream →
      sum (stream, f) = ∑ i ∈ Finset.range (min W (seen stream)), x stream i f

/-- The key that token `t` of a stream is stored as. -/
def centeredKey (stream t f : ℕ) : ℚ :=
  if t < W then x stream t f
  else x stream t f - (∑ i ∈ Finset.range W, x stream i f) / W

variable {W nFeatures x}

lemma truncToInt_natCast (n : ℕ) : truncToInt (n : ℚ) = n := by
  simp [truncToInt]

section Ubatch

variable {m : KMeanMemory} {seen : ℕ → ℕ} {c : KMeanNode} {a : ℕ}
  (hinv : KMeanInv W nFeatures x m.sum seen) (hnext : NextUbatch W nFeatures x seen c)

include hinv hnext in
lemma oldCount_eq : c.oldCount (m.sum (c.stream a, c.nFeatures)) = min W (seen (c.stream a)) := by
  rw [hnext.features, (hinv _).1, KMeanNode.oldCount, truncToInt_natCast, hnext.warmup]
  omega

include hnext in
lemma take_eq (oldCount : ℕ) : c.take oldCount = min (W - oldCount) c.nSeqTokens := by
  rw [KMeanNode.take, KMeanNode.effectiveWarmup, hnext.centerWarmup, hnext.warmup]
  rfl

include hinv hnext in
lemma acc_eq_sum (hW : 0 < W) (ha : a < c.nActiveStreams) {f : ℕ} (hf : f < nFeatures) :
    c.acc (a * c.nSeqTokens) f (min W (seen (c.stream a))) (m.sum (c.stream a, f)) =
      ∑ i ∈ Finset.range (min W (seen (c.stream a) + c.nSeqTokens)), x (c.stream a) i f := by
  have htake := take_eq hnext (min W (seen (c.stream a)))
  have hold : (if min W (seen (c.stream a)) = 0 then 0 else m.sum (c.stream a, f)) =
      ∑ i ∈ Finset.range (min W (seen (c.stream a))), x (c.stream a) i f := by
    split_ifs with h
    · rw [h, Finset.sum_range_zero]
    · exact (hinv _).2 f hf (by omega)
  have hnew : ∀ i ∈ Finset.range (c.take (min W (seen (c.stream a)))),
      c.src (a * c.nSeqTokens + i) f = x (c.stream a) (min W (seen (c.stream a)) + i) f := by
    intro i hi
    have hi' := Finset.mem_range.mp hi
    rw [hnext.keys a ha i (by omega) f hf, show min W (seen (c.stream a)) = seen (c.stream a) by
      omega]
  rw [KMeanNode.acc_eq, hold, Finset.sum_congr rfl hnew, ← Finset.sum_range_add]
  congr 2
  omega

include hinv hnext in
lemma output_eq (hW : 0 < W) (ha : a < c.nActiveStreams) {f i : ℕ} (hf : f < nFeatures)
    (hi : i < c.nSeqTokens) :
    c.output (a * c.nSeqTokens) f (min W (seen (c.stream a)))
        (c.acc (a * c.nSeqTokens) f (min W (seen (c.stream a))) (m.sum (c.stream a, f)))
        (a * c.nSeqTokens + i) =
      centeredKey W x (c.stream a) (seen (c.stream a) + i) f := by
  have htake := take_eq hnext (min W (seen (c.stream a)))
  have hwarmup : c.effectiveWarmup (min W (seen (c.stream a))) = W := by
    rw [KMeanNode.effectiveWarmup, hnext.centerWarmup, hnext.warmup]
    rfl
  rw [KMeanNode.output, acc_eq_sum hinv hnext hW ha hf, hnext.keys a ha i hi f hf, hwarmup,
    centeredKey, hnext.centerWarmup]
  by_cases hlt : seen (c.stream a) + i < W
  · rw [if_pos hlt, if_neg]
    rintro ⟨hcomplete, hcenter | hcenter⟩
    · exact Bool.false_ne_true hcenter
    · omega
  · rw [if_neg hlt, if_pos ⟨by omega, Or.inr (by omega)⟩,
      show min W (seen (c.stream a) + c.nSeqTokens) = W by omega]

end Ubatch

lemma KMeanInv.ubatch (hW : 0 < W) {m m' : KMeanMemory} {seen : ℕ → ℕ} {c : KMeanNode} {nth : ℕ}
    (hinv : KMeanInv W nFeatures x m.sum seen) (hnext : NextUbatch W nFeatures x seen c)
    (hnth : 0 < nth) (hcomputes : c.Computes nth m m') :
    KMeanInv W nFeatures x m'.sum (c.seenAfter seen) := by
  obtain ⟨hactive, hother⟩ := hcomputes.spec hnth hnext.apart
  intro stream
  by_cases h : ∃ a < c.nActiveStreams, c.stream a = stream
  · obtain ⟨a, ha, rfl⟩ := h
    have hseen : c.seenAfter seen (c.stream a) = seen (c.stream a) + c.nSeqTokens :=
      if_pos ⟨a, ha, rfl⟩
    obtain ⟨hcount, hsums⟩ := hactive a ha
    rw [oldCount_eq hinv hnext] at hcount hsums
    rw [hnext.features] at hcount hsums
    have htake := take_eq hnext (min W (seen (c.stream a)))
    rw [hseen]
    refine ⟨?_, fun f hf _ => ?_⟩
    · rw [hcount]
      congr 1
      omega
    · rw [(hsums f hf).1, acc_eq_sum hinv hnext hW ha hf]
  · have hseen : c.seenAfter seen stream = seen stream := if_neg h
    have hkeep := hother stream fun b hb heq => h ⟨b, hb, heq⟩
    rw [hseen, hkeep]
    refine ⟨(hinv stream).1, fun f hf hpos => ?_⟩
    rw [hkeep]
    exact (hinv stream).2 f hf hpos

lemma KMeanRun.inv (hW : 0 < W) {sum : ℕ × ℕ → ℚ} {seen : ℕ → ℕ}
    (h : KMeanRun W nFeatures x sum seen) : KMeanInv W nFeatures x sum seen := by
  induction h with
  | start hzero =>
    intro stream
    refine ⟨?_, fun f _ hpos => absurd hpos (lt_irrefl 0)⟩
    rw [hzero, Nat.min_zero, Nat.cast_zero]
  | ubatch hrun hnext hnth hcomputes ih => exact ih.ubatch hW hnext hnth hcomputes

end Streams

/-- However the streams are cut into ubatches and mixed, and on every number of threads, token `t`
of a stream is stored as it is during the warm-up and less the mean of the warm-up afterwards. -/
theorem kMeanCenter_outputs (W nFeatures : ℕ) (hW : 1 ≤ W) (x : ℕ → ℕ → ℕ → ℚ) (m m' : KMeanMemory)
    (seen : ℕ → ℕ) (hrun : KMeanRun W nFeatures x m.sum seen) (c : KMeanNode)
    (hnext : NextUbatch W nFeatures x seen c) (nth : ℕ) (hnth : 0 < nth)
    (hcomputes : c.Computes nth m m') :
    ∀ a < c.nActiveStreams, ∀ i < c.nSeqTokens, ∀ f < nFeatures,
      m'.dst (a * c.nSeqTokens + i, f) =
        let t := seen (c.stream a) + i
        if t < W then x (c.stream a) t f
        else x (c.stream a) t f - (∑ j ∈ Finset.range W, x (c.stream a) j f) / W := by
  intro a ha i hi f hf
  have hinv := hrun.inv hW
  have hout := (((hcomputes.spec hnth hnext.apart).1 a ha).2 f (hnext.features.symm ▸ hf)).2 i hi
  rw [oldCount_eq hinv hnext] at hout
  rw [hout, output_eq hinv hnext hW ha hf hi, centeredKey]

/-- A ubatch of two keys, `5` and `6`, and a warm-up of one. -/
def twoKeys : KMeanNode where
  warmup := 1
  centerWarmup := false
  kvSize := 256
  nSeqTokens := 2
  nFeatures := 1
  nActiveStreams := 1
  src token _ := token + 5
  index token := token

/-- The second key is stored less the first. -/
theorem kMeanCenter_outputs_twoKeys : ∃ m', twoKeys.Computes 3 ⟨fun _ => 0, fun _ => 0⟩ m' ∧
    m'.dst (1, 0) = 1 := by
  obtain ⟨m', hm'⟩ := twoKeys.exists_computes 3 ⟨fun _ => 0, fun _ => 0⟩
  have hapart : twoKeys.StreamsApart := fun a ha b hb _ =>
    (Nat.lt_one_iff.mp ha).trans (Nat.lt_one_iff.mp hb).symm
  have hnext : NextUbatch 1 1 (fun _ t _ => (t : ℚ) + 5) (fun _ => 0) twoKeys := by
    refine ⟨rfl, rfl, rfl, hapart, fun a ha i _ f _ => ?_⟩
    rw [Nat.lt_one_iff.mp ha, Nat.zero_mul]
    rfl
  have hout := kMeanCenter_outputs 1 1 (le_refl 1) (fun _ t _ => (t : ℚ) + 5)
    ⟨fun _ => 0, fun _ => 0⟩ m' (fun _ => 0) (.start fun _ => rfl) twoKeys hnext 3 (Nat.succ_pos 2)
    hm' 0 Nat.one_pos 1 Nat.one_lt_two 0 Nat.one_pos
  refine ⟨m', hm', hout.trans ?_⟩
  norm_num [Finset.sum_range_one]

end IFairy

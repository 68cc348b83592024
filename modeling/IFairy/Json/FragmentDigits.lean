import IFairy.Json.IntegerRange

/-!
# The digits that a fragment accepts

A fragment without a sign accepts texts of digits only, and `Frag.digits` are the lists of digits.
`digits_uniformRange` and `digits_bounded` say which they are for the fragments between two bounds.
-/

namespace IFairy.JsonSchema

/-! ## Fragments without a sign -/

namespace Frag

/-- The lists of digits whose text a fragment without a sign stands for. -/
def digits : Frag → Set (List ℕ)
  | minus => ∅
  | lit ds => {ds}
  | digitRange lo hi => {x | ∃ d, lo ≤ d ∧ d ≤ hi ∧ x = [d]}
  | moreDigits a b => {x | AllDigits x ∧ a ≤ x.length ∧ x.length ≤ b}
  | seq a b => Set.image2 (· ++ ·) a.digits b.digits
  | alt a b => a.digits ∪ b.digits
  | group a => a.digits

/-- The fragment has no sign and names only decimal digits. -/
def Plain : Frag → Prop
  | minus => False
  | lit ds => AllDigits ds
  | digitRange _ hi => hi < 10
  | moreDigits _ _ => True
  | seq a b => a.Plain ∧ b.Plain
  | alt a b => a.Plain ∧ b.Plain
  | group a => a.Plain

lemma mem_digits_digitRange {lo hi : ℕ} {x : List ℕ} :
    x ∈ (digitRange lo hi).digits ↔ ∃ d, lo ≤ d ∧ d ≤ hi ∧ x = [d] := Iff.rfl

lemma mem_digits_moreDigits {a b : ℕ} {x : List ℕ} :
    x ∈ (moreDigits a b).digits ↔ AllDigits x ∧ a ≤ x.length ∧ x.length ≤ b := Iff.rfl

@[simp] lemma mem_digits_alt {a b : Frag} {x : List ℕ} :
    x ∈ (alt a b).digits ↔ x ∈ a.digits ∨ x ∈ b.digits := Iff.rfl

@[simp] lemma digits_group {a : Frag} : (group a).digits = a.digits := rfl

lemma mem_digits_digitRange_seq {lo hi : ℕ} {a : Frag} {x : List ℕ} :
    x ∈ (seq (digitRange lo hi) a).digits ↔
      ∃ d y, x = d :: y ∧ lo ≤ d ∧ d ≤ hi ∧ y ∈ a.digits := by
  constructor
  · rintro ⟨_, ⟨d, hlo, hhi, rfl⟩, y, hy, rfl⟩
    exact ⟨d, y, rfl, hlo, hhi, hy⟩
  · rintro ⟨d, y, rfl, hlo, hhi, hy⟩
    exact ⟨[d], ⟨d, hlo, hhi, rfl⟩, y, hy, rfl⟩

@[simp] lemma cons_mem_digits_digitRange_seq {lo hi d : ℕ} {a : Frag} {y : List ℕ} :
    d :: y ∈ (seq (digitRange lo hi) a).digits ↔ lo ≤ d ∧ d ≤ hi ∧ y ∈ a.digits := by
  rw [mem_digits_digitRange_seq]
  constructor
  · rintro ⟨_, _, h, hd⟩
    obtain ⟨rfl, rfl⟩ := List.cons.inj h
    exact hd
  · exact fun hd => ⟨d, y, rfl, hd⟩

lemma nil_notMem_digits_digitRange_seq {lo hi : ℕ} {a : Frag} :
    [] ∉ (seq (digitRange lo hi) a).digits := by
  rw [mem_digits_digitRange_seq]
  rintro ⟨_, _, h, _⟩
  exact List.cons_ne_nil _ _ h.symm

lemma allDigits_of_mem {a : Frag} (h : a.Plain) {x : List ℕ} (hx : x ∈ a.digits) :
    AllDigits x := by
  induction a generalizing x with
  | minus => exact hx.elim
  | lit ds => exact hx ▸ h
  | digitRange lo hi =>
    obtain ⟨d, -, hd, rfl⟩ := hx
    exact allDigits_cons.2 ⟨hd.trans_lt h, allDigits_nil⟩
  | moreDigits a b => exact hx.1
  | seq a b iha ihb =>
    obtain ⟨y, hy, z, hz, rfl⟩ := hx
    exact allDigits_append.2 ⟨iha h.1 hy, ihb h.2 hz⟩
  | alt a b iha ihb => exact hx.elim (iha h.1) (ihb h.2)
  | group a ih => exact ih h hx

lemma language_of_plain {a : Frag} (h : a.Plain) :
    a.language = List.map digitChar '' a.digits := by
  induction a with
  | minus => exact h.elim
  | lit ds => rw [language, digits, Set.image_singleton]
  | digitRange lo hi =>
    ext w
    constructor
    · rintro ⟨d, hlo, hhi, rfl⟩
      exact ⟨[d], ⟨d, hlo, hhi, rfl⟩, rfl⟩
    · rintro ⟨_, ⟨d, hlo, hhi, rfl⟩, rfl⟩
      exact ⟨d, hlo, hhi, rfl⟩
  | moreDigits a b =>
    ext w
    constructor
    · rintro ⟨ds, hds, ha, hb, rfl⟩
      exact ⟨ds, ⟨hds, ha, hb⟩, rfl⟩
    · rintro ⟨ds, ⟨hds, ha, hb⟩, rfl⟩
      exact ⟨ds, hds, ha, hb, rfl⟩
  | seq a b iha ihb =>
    rw [language, digits, iha h.1, ihb h.2, Set.image2_image_left, Set.image2_image_right,
      Set.image_image2]
    simp only [List.map_append]
  | alt a b iha ihb => rw [language, digits, iha h.1, ihb h.2, Set.image_union]
  | group a ih => exact ih h

end Frag

open Frag

lemma digitChar_inj {d e : ℕ} (hd : d < 10) (he : e < 10) (h : digitChar d = digitChar e) :
    d = e := by
  revert h
  interval_cases d <;> interval_cases e <;> decide

lemma digitChar_ne_minus {d : ℕ} (hd : d < 10) : digitChar d ≠ '-' := by
  interval_cases d <;> decide

lemma map_digitChar_inj {ds es : List ℕ} (hds : AllDigits ds) (hes : AllDigits es)
    (h : ds.map digitChar = es.map digitChar) : ds = es := by
  induction ds generalizing es with
  | nil => exact (List.map_eq_nil_iff.1 h.symm).symm
  | cons d ds ih =>
    cases es with
    | nil => simp at h
    | cons e es =>
      rw [List.map_cons, List.map_cons] at h
      obtain ⟨hd, hds⟩ := allDigits_cons.1 hds
      obtain ⟨he, hes⟩ := allDigits_cons.1 hes
      rw [digitChar_inj hd he (List.cons.inj h).1, ih hds hes (List.cons.inj h).2]

/-! ## Ranges with the same number of digits -/

/-- The numerals as long as `lo` from `lo` to `hi`. -/
def Between (lo hi : List ℕ) : Set (List ℕ) :=
  {x | AllDigits x ∧ x.length = lo.length ∧ valueOf lo ≤ valueOf x ∧ valueOf x ≤ valueOf hi}

lemma cons_mem_between {f t e : ℕ} {fs ts y : List ℕ} (hfs : AllDigits fs) (hts : AllDigits ts)
    (hlen : ts.length = fs.length) :
    e :: y ∈ Between (f :: fs) (t :: ts) ↔
      e < 10 ∧ AllDigits y ∧ y.length = fs.length ∧
        (f < e ∨ f = e ∧ valueOf fs ≤ valueOf y) ∧ (e < t ∨ e = t ∧ valueOf y ≤ valueOf ts) := by
  have hside : ∀ hy : AllDigits y, ∀ hlen' : y.length = fs.length,
      (valueOf (f :: fs) ≤ valueOf (e :: y) ∧ valueOf (e :: y) ≤ valueOf (t :: ts) ↔
        (f < e ∨ f = e ∧ valueOf fs ≤ valueOf y) ∧ (e < t ∨ e = t ∧ valueOf y ≤ valueOf ts)) :=
    fun hy hlen' => and_congr (valueOf_cons_le_cons hlen'.symm hfs hy)
      (valueOf_cons_le_cons (hlen'.trans hlen.symm) hy hts)
  constructor
  · rintro ⟨hx, hlen', hvalue⟩
    obtain ⟨he, hy⟩ := allDigits_cons.1 hx
    have hlen' := Nat.succ.inj hlen'
    exact ⟨he, hy, hlen', (hside hy hlen').1 hvalue⟩
  · rintro ⟨he, hy, hlen', hvalue⟩
    exact ⟨allDigits_cons.2 ⟨he, hy⟩, congrArg Nat.succ hlen', (hside hy hlen').2 hvalue⟩

lemma nil_notMem_between {f : ℕ} {fs hi : List ℕ} : [] ∉ Between (f :: fs) hi :=
  fun h => Nat.noConfusion h.2.1

lemma between_self {ds : List ℕ} (h : AllDigits ds) : Between ds ds = {ds} := by
  have heq : ∀ x ∈ Between ds ds, x = ds := by
    induction ds with
    | nil => exact fun x hx => List.length_eq_zero_iff.1 hx.2.1
    | cons d ds ih =>
      rintro (_ | ⟨e, y⟩) hx
      · exact (nil_notMem_between hx).elim
      obtain ⟨-, hds⟩ := allDigits_cons.1 h
      obtain ⟨-, hy, hlen, hlo, hhi⟩ := (cons_mem_between hds hds rfl).1 hx
      have hde : d = e := by omega
      rw [← hde, ih hds y ⟨hy, hlen, by omega, by omega⟩]
  ext x
  refine ⟨heq x, fun hx => ?_⟩
  rw [Set.mem_singleton_iff.1 hx]
  exact ⟨h, rfl, le_rfl, le_rfl⟩

lemma mem_between_append {p lo hi x : List ℕ} (hp : AllDigits p) (hlo : AllDigits lo)
    (hhi : AllDigits hi) (hlen : hi.length = lo.length) :
    x ∈ Between (p ++ lo) (p ++ hi) ↔ ∃ y ∈ Between lo hi, p ++ y = x := by
  induction p generalizing x with
  | nil => simp
  | cons d p ih =>
    obtain ⟨hd, hp⟩ := allDigits_cons.1 hp
    obtain _ | ⟨e, z⟩ := x
    · exact iff_of_false nil_notMem_between (by simp)
    rw [List.cons_append, List.cons_append,
      cons_mem_between (allDigits_append.2 ⟨hp, hlo⟩) (allDigits_append.2 ⟨hp, hhi⟩) (by simp [hlen])]
    constructor
    · rintro ⟨-, hz, hlen', hl, hu⟩
      have hde : d = e := by omega
      rw [← hde]
      obtain ⟨y, hy, rfl⟩ := (ih hp).1 ⟨hz, hlen', by omega, by omega⟩
      exact ⟨y, hy, rfl⟩
    · rintro ⟨y, hy, h⟩
      obtain ⟨rfl, rfl⟩ := List.cons.inj h
      obtain ⟨hz, hlen', hl, hu⟩ := (ih hp).2 ⟨y, hy, rfl⟩
      exact ⟨hd, hz, hlen', Or.inr ⟨rfl, hl⟩, Or.inr ⟨rfl, hu⟩⟩

lemma sharedLength_spec {xs ys : List ℕ} (h : ys.length = xs.length) :
    xs.take (sharedLength xs ys) = ys.take (sharedLength xs ys) ∧
      ∀ f fs t ts, xs.drop (sharedLength xs ys) = f :: fs → ys.drop (sharedLength xs ys) = t :: ts →
        f ≠ t := by
  induction xs generalizing ys with
  | nil => simp [sharedLength, List.length_eq_zero_iff.1 h]
  | cons x xs ih =>
    obtain _ | ⟨y, ys⟩ := ys
    · exact Nat.noConfusion h
    rw [sharedLength]
    by_cases hxy : x = y
    · rw [if_pos hxy, List.take_succ_cons, List.take_succ_cons, List.drop_succ_cons,
        List.drop_succ_cons, hxy]
      exact ⟨congrArg _ (ih (Nat.succ.inj h)).1, (ih (Nat.succ.inj h)).2⟩
    · rw [if_neg hxy]
      refine ⟨by simp, fun f fs t ts hf ht => ?_⟩
      rw [List.drop_zero] at hf ht
      rw [← (List.cons.inj hf).1, ← (List.cons.inj ht).1]
      exact hxy

lemma nil_notMem_splitRange {f t : ℕ} {fs ts : List ℕ} {low high : Frag} :
    [] ∉ (splitRange f t fs ts low high).digits := by
  rw [splitRange]
  split_ifs <;>
    simp [nil_notMem_digits_digitRange_seq, mem_digits_digitRange]

lemma digits_splitRange {f t : ℕ} {fs ts : List ℕ} {low high : Frag} (hft : f < t) (ht : t < 10)
    (hfs : AllDigits fs) (hts : AllDigits ts) (hlen : ts.length = fs.length)
    (hlow : low.digits = Between fs (List.replicate fs.length 9))
    (hhigh : high.digits = Between (List.replicate fs.length 0) ts) :
    (splitRange f t fs ts low high).digits = Between (f :: fs) (t :: ts) := by
  have hzero := valueOf_replicate_zero fs.length
  have hnine := valueOf_replicate_nine fs.length
  ext x
  obtain _ | ⟨e, y⟩ := x
  · exact iff_of_false nil_notMem_splitRange nil_notMem_between
  rw [cons_mem_between hfs hts hlen]
  have hlowmem : y ∈ low.digits ↔ AllDigits y ∧ y.length = fs.length ∧ valueOf fs ≤ valueOf y := by
    rw [hlow]
    constructor
    · exact fun h => ⟨h.1, h.2.1, h.2.2.1⟩
    · intro h
      have := valueOf_lt h.1
      rw [h.2.1] at this
      exact ⟨h.1, h.2.1, h.2.2, by omega⟩
  have hhighmem : y ∈ high.digits ↔ AllDigits y ∧ y.length = fs.length ∧ valueOf y ≤ valueOf ts := by
    rw [hhigh]
    constructor
    · exact fun h => ⟨h.1, h.2.1.trans List.length_replicate, h.2.2.2⟩
    · intro h
      exact ⟨h.1, h.2.1.trans List.length_replicate.symm, by omega, h.2.2⟩
  have hmore : y ∈ (moreDigits fs.length fs.length).digits ↔ AllDigits y ∧ y.length = fs.length := by
    rw [mem_digits_moreDigits, le_antisymm_iff, and_comm (a := fs.length ≤ y.length)]
  rw [splitRange]
  by_cases hnil : fs.length = 0
  · rw [if_pos hnil]
    obtain rfl := List.length_eq_zero_iff.1 hnil
    obtain rfl := List.length_eq_zero_iff.1 hlen
    rw [mem_digits_digitRange]
    constructor
    · rintro ⟨d, hlo, hhi, h⟩
      obtain ⟨rfl, rfl⟩ := List.cons.inj h
      exact ⟨by omega, allDigits_nil, rfl, by omega, by omega⟩
    · rintro ⟨he, hy, hlen', hlo, hhi⟩
      exact ⟨e, by omega, by omega, by rw [List.length_eq_zero_iff.1 hlen']⟩
  rw [if_neg hnil]
  by_cases hfzero : fs = List.replicate fs.length 0
  · have hfval : valueOf fs = 0 := by rw [hfzero, hzero]
    rw [if_pos hfzero]
    simp only [digits_group, mem_digits_alt, cons_mem_digits_digitRange_seq, hmore, hhighmem]
    grind
  rw [if_neg hfzero]
  by_cases hgap : f < t - 1
  · rw [if_pos hgap]
    by_cases htnine : ts = List.replicate fs.length 9
    · have htval : AllDigits y → y.length = fs.length → valueOf y ≤ valueOf ts := by
        intro hy hlen'
        have := valueOf_lt hy
        rw [hlen'] at this
        rw [htnine]
        omega
      rw [if_pos htnine]
      simp only [digits_group, mem_digits_alt, cons_mem_digits_digitRange_seq, hmore, hlowmem]
      grind
    · rw [if_neg htnine]
      simp only [digits_group, mem_digits_alt, cons_mem_digits_digitRange_seq, hmore, hlowmem,
        hhighmem]
      grind
  · rw [if_neg hgap]
    simp only [digits_group, mem_digits_alt, cons_mem_digits_digitRange_seq, hlowmem, hhighmem]
    grind

/-- `uniform_range` accepts the numerals between its bounds. -/
lemma digits_uniformRange {fuel : ℕ} {lo hi : List ℕ} (hfuel : lo.length ≤ fuel)
    (hlo : AllDigits lo) (hhi : AllDigits hi) (hlen : hi.length = lo.length)
    (hle : valueOf lo ≤ valueOf hi) : (uniformRange fuel lo hi).digits = Between lo hi := by
  induction fuel generalizing lo hi with
  | zero =>
    obtain rfl := List.length_eq_zero_iff.1 (Nat.le_zero.1 hfuel)
    obtain rfl := List.length_eq_zero_iff.1 hlen
    exact (between_self allDigits_nil).symm
  | succ fuel ih =>
    obtain ⟨hshared, hdiffer⟩ := sharedLength_spec hlen
    have hsplit := List.take_append_drop (sharedLength lo hi) lo
    have hsplit' := List.take_append_drop (sharedLength lo hi) hi
    rw [← hshared] at hsplit'
    have hp : AllDigits (lo.take (sharedLength lo hi)) :=
      fun d hd => hlo d (List.mem_of_mem_take hd)
    rw [uniformRange]
    generalize sharedLength lo hi = i at *
    generalize hp' : lo.take i = p at *
    generalize lo.drop i = fs' at *
    generalize hi.drop i = ts' at *
    subst hsplit hsplit'
    obtain ⟨-, hfs⟩ := allDigits_append.1 hlo
    obtain ⟨-, hts⟩ := allDigits_append.1 hhi
    have hlen' : ts'.length = fs'.length := by simpa using hlen
    obtain _ | ⟨f, fs⟩ := fs'
    · obtain rfl := List.length_eq_zero_iff.1 hlen'
      simp only [List.append_nil]
      rw [between_self hp]
      rfl
    obtain _ | ⟨t, ts⟩ := ts'
    · exact Nat.noConfusion hlen'
    have hlen'' : ts.length = fs.length := Nat.succ.inj hlen'
    obtain ⟨hf, hfs⟩ := allDigits_cons.1 hfs
    obtain ⟨ht, hts⟩ := allDigits_cons.1 hts
    have hft : f < t := by
      have hne := hdiffer f fs t ts rfl rfl
      rw [valueOf_append, valueOf_append, hlen'] at hle
      have hle' : valueOf (f :: fs) ≤ valueOf (t :: ts) := by omega
      have hcases := (valueOf_cons_le_cons hlen''.symm hfs hts).1 hle'
      omega
    have hfuel' : fs.length ≤ fuel := by
      rw [List.length_append, List.length_cons] at hfuel
      omega
    have hnine := valueOf_replicate_nine fs.length
    have hfsval := valueOf_lt hfs
    have hrest := digits_splitRange hft ht hfs hts hlen''
      (ih hfuel' hfs (allDigits_replicate (by norm_num) _) List.length_replicate (by omega))
      (ih (List.length_replicate.trans_le hfuel') (allDigits_replicate (by norm_num) _) hts
        (hlen''.trans List.length_replicate.symm)
        (by rw [valueOf_replicate_zero]; exact Nat.zero_le _))
    ext x
    rw [mem_between_append hp (allDigits_cons.2 ⟨hf, hfs⟩) (allDigits_cons.2 ⟨ht, hts⟩) hlen',
      ← hrest]
    dsimp only
    by_cases hzero : i = 0
    · have hpnil : p = [] := by rw [← hp', hzero, List.take_zero]
      rw [if_pos hzero, hpnil]
      simp
    · rw [if_neg hzero]
      simp [digits]

lemma plain_splitRange {f t : ℕ} {fs ts : List ℕ} {low high : Frag} (hf : f < 10) (ht : t < 10)
    (hlow : low.Plain) (hhigh : high.Plain) : (splitRange f t fs ts low high).Plain := by
  rw [splitRange]
  split_ifs <;> simp only [Plain, hf, ht, hlow, hhigh, and_true, true_and]
  · omega
  · omega

lemma plain_uniformRange {fuel : ℕ} {lo hi : List ℕ} (hlo : AllDigits lo) (hhi : AllDigits hi) :
    (uniformRange fuel lo hi).Plain := by
  induction fuel generalizing lo hi with
  | zero => exact hlo
  | succ fuel ih =>
    have hp : AllDigits (lo.take (sharedLength lo hi)) :=
      fun d hd => hlo d (List.mem_of_mem_take hd)
    have hfs : AllDigits (lo.drop (sharedLength lo hi)) :=
      fun d hd => hlo d (List.mem_of_mem_drop hd)
    have hts : AllDigits (hi.drop (sharedLength lo hi)) :=
      fun d hd => hhi d (List.mem_of_mem_drop hd)
    rw [uniformRange]
    split
    case h_1 hlo' hhi' =>
      rw [hlo'] at hfs
      rw [hhi'] at hts
      obtain ⟨hf, hfs⟩ := allDigits_cons.1 hfs
      obtain ⟨ht, hts⟩ := allDigits_cons.1 hts
      have hlow : ∀ n, (uniformRange fuel _ (List.replicate n 9)).Plain :=
        fun n => ih hfs (allDigits_replicate (by norm_num) n)
      have hhigh : ∀ n, (uniformRange fuel (List.replicate n 0) _).Plain :=
        fun n => ih (allDigits_replicate (by norm_num) n) hts
      have hrest : ∀ n n' fs ts, (splitRange _ _ fs ts _ _).Plain := fun n n' _ _ =>
        plain_splitRange hf ht (hlow n) (hhigh n')
      dsimp only
      split
      · exact hrest _ _ _ _
      · exact ⟨hp, hrest _ _ _ _⟩
    case h_2 => exact hp

/-! ## The numbers between two bounds -/

lemma between_decimal {a b : ℕ} (hlen : (decimal b).length = (decimal a).length) :
    Between (decimal a) (decimal b) = decimal '' Set.Icc a b := by
  ext x
  constructor
  · rintro ⟨hx, hxlen, hlo, hhi⟩
    rw [valueOf_decimal] at hlo hhi
    refine ⟨valueOf x, ⟨hlo, hhi⟩, ?_⟩
    obtain _ | ⟨d, ds⟩ := x
    · exact absurd (List.length_eq_zero_iff.1 hxlen.symm) (decimal_ne_nil a)
    by_cases hd : d = 0
    · obtain ⟨-, hds⟩ := allDigits_cons.1 hx
      have hds' := valueOf_lt hds
      rw [hd, valueOf, Nat.zero_mul, Nat.zero_add] at hlo
      have hshort : ds = [] := by
        by_contra hne
        have hk : ds.length ≠ 0 := fun h => hne (List.length_eq_zero_iff.1 h)
        have := (length_decimal_le_iff hk).2 (hlo.trans_lt hds')
        rw [← hxlen, List.length_cons] at this
        omega
      rw [hd, hshort]
      rfl
    · exact decimal_valueOf hd hx
  · rintro ⟨n, ⟨hlo, hhi⟩, rfl⟩
    have hshort := length_decimal_mono hhi
    rw [hlen] at hshort
    exact ⟨allDigits_decimal n, le_antisymm hshort (length_decimal_mono hlo),
      by rwa [valueOf_decimal, valueOf_decimal], by rwa [valueOf_decimal, valueOf_decimal]⟩

lemma decimal_nines {n : ℕ} (hn : n ≠ 0) : decimal (10 ^ n - 1) = List.replicate n 9 := by
  obtain ⟨n, rfl⟩ := Nat.exists_eq_succ_of_ne_zero hn
  have hvalue := valueOf_replicate_nine (n + 1)
  rw [← hvalue, Nat.add_sub_cancel, List.replicate_succ]
  exact decimal_valueOf (by norm_num) (allDigits_replicate (by norm_num) (n + 1))

lemma decimal_pow (n : ℕ) : decimal (10 ^ n) = 1 :: List.replicate n 0 := by
  have hvalue : valueOf (1 :: List.replicate n 0) = 10 ^ n := by
    rw [valueOf, valueOf_replicate_zero, List.length_replicate, Nat.one_mul, Nat.add_zero]
  rw [← hvalue]
  exact decimal_valueOf (by norm_num)
    (allDigits_cons.2 ⟨by norm_num, allDigits_replicate (by norm_num) n⟩)

/-- The loop over the numbers of digits, from a lower bound whose numeral is `decimal a`. -/
lemma digits_digitLoop {rounds a b : ℕ} (hle : a ≤ b)
    (hlen : (decimal b).length = (decimal a).length + rounds) :
    (digitLoop (decimal b) rounds (decimal a)).digits = decimal '' Set.Icc a b := by
  induction rounds generalizing a with
  | zero =>
    rw [digitLoop, digits_uniformRange le_rfl (allDigits_decimal a) (allDigits_decimal b) hlen
      (by rwa [valueOf_decimal, valueOf_decimal]), between_decimal hlen]
  | succ rounds ih =>
    have hk : (decimal a).length ≠ 0 := fun h => decimal_ne_nil a (List.length_eq_zero_iff.1 h)
    have hlt : a < 10 ^ (decimal a).length := (length_decimal_le_iff hk).1 le_rfl
    have hbig : 10 ^ (decimal a).length ≤ b := by
      by_contra hsmall
      have := (length_decimal_le_iff hk).2 (not_le.1 hsmall)
      omega
    have hnines := decimal_nines hk
    have hfirst : (uniformRange (decimal a).length (decimal a)
        (List.replicate (decimal a).length 9)).digits
          = decimal '' Set.Icc a (10 ^ (decimal a).length - 1) := by
      rw [← hnines]
      refine (digits_uniformRange le_rfl (allDigits_decimal a) (allDigits_decimal _) ?_ ?_).trans
        (between_decimal ?_)
      · rw [hnines, List.length_replicate]
      · rw [valueOf_decimal, valueOf_decimal]
        omega
      · rw [hnines, List.length_replicate]
    have hpow := decimal_pow (decimal a).length
    have hrest := ih hbig (by rw [hpow, hlen, List.length_cons, List.length_replicate]; omega)
    rw [hpow] at hrest
    rw [digitLoop]
    ext x
    rw [mem_digits_alt, hfirst, hrest, ← Set.mem_union, ← Set.image_union]
    have hunion : Set.Icc a (10 ^ (decimal a).length - 1) ∪ Set.Icc (10 ^ (decimal a).length) b
        = Set.Icc a b := by
      ext n
      simp only [Set.mem_union, Set.mem_Icc]
      omega
    rw [hunion]

/-- The fragment between two bounds accepts the numerals of the numbers between them. -/
theorem digits_bounded {a b : ℕ} (hle : a ≤ b) :
    (bounded a b).digits = decimal '' Set.Icc a b :=
  digits_digitLoop hle (Nat.add_sub_cancel' (length_decimal_mono hle)).symm

lemma plain_digitLoop {rounds : ℕ} {hi lo : List ℕ} (hhi : AllDigits hi) (hlo : AllDigits lo) :
    (digitLoop hi rounds lo).Plain := by
  induction rounds generalizing lo with
  | zero => exact plain_uniformRange hlo hhi
  | succ rounds ih =>
    exact ⟨plain_uniformRange hlo (allDigits_replicate (by norm_num) _),
      ih (allDigits_cons.2 ⟨by norm_num, allDigits_replicate (by norm_num) _⟩)⟩

lemma plain_bounded (a b : ℕ) : (bounded a b).Plain :=
  plain_digitLoop (allDigits_decimal b) (allDigits_decimal a)

end IFairy.JsonSchema

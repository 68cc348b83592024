import IFairy.Json.NotStringsSpec

/-!
# The class of the other characters

The class of a node excludes the quote and the keys.  If a key is `-`, the class has a range from
the key in front of it to the key behind it; the class excludes the right characters exactly when
there is no key behind it, or the range is `,-.` (`classHas_keys_iff`).
-/

namespace IFairy.JsonSchema

open LlamaGrammar

/-! ## Classes with and without a range -/

lemma itemHas_single {c d : ℕ} : ItemHas (c, none) d ↔ d = c := by
  rw [ItemHas, Option.getD_none]
  omega

lemma classHas_cons {c d e : Char} {body : List Char} (hd : d ≠ '-') {x : ℕ} :
    ClassHas (c :: d :: e :: body) x ↔ x = c.toNat ∨ ClassHas (d :: e :: body) x := by
  simp only [ClassHas, classItems, if_neg hd, List.mem_cons, exists_eq_or_imp, itemHas_single]

lemma classHas_pair {c d : Char} {x : ℕ} : ClassHas [c, d] x ↔ x = c.toNat ∨ x = d.toNat := by
  simp only [ClassHas, classItems, List.mem_cons, List.not_mem_nil, or_false, exists_eq_or_imp,
    exists_eq_left, itemHas_single]

lemma classHas_singleton {c : Char} {x : ℕ} : ClassHas [c] x ↔ x = c.toNat := by
  simp only [ClassHas, classItems, List.mem_singleton, exists_eq_left, itemHas_single]

lemma classHas_nil {x : ℕ} : ¬ClassHas [] x := fun ⟨_, hi, _⟩ => absurd hi List.not_mem_nil

/-- A class in which no `-` follows a character and stands in front of another one. -/
lemma classHas_of_no_range {body : List Char} (h : '-' ∉ body.tail.dropLast) {x : ℕ} :
    ClassHas body x ↔ ∃ c ∈ body, x = c.toNat := by
  induction body using classItems.induct with
  | case1 => simp [classHas_nil]
  | case2 c => simp [classHas_singleton]
  | case3 c d => simp [classHas_pair]
  | case4 c e body ih => exact absurd (by simp) h
  | case5 c d e body hd ih =>
    have hrest : '-' ∉ (d :: e :: body).tail.dropLast := fun hmem => h (by
      rw [List.tail_cons] at hmem ⊢
      rw [List.dropLast_cons_of_ne_nil (List.cons_ne_nil e body)]
      exact List.mem_cons_of_mem d hmem)
    rw [classHas_cons hd, ih hrest]
    simp only [List.mem_cons, exists_eq_or_imp]

lemma classHas_range {pre post : List Char} {first last : Char} (hpre : '-' ∉ pre)
    (hfirst : first ≠ '-') {x : ℕ} :
    ClassHas (pre ++ first :: '-' :: last :: post) x ↔
      (∃ c ∈ pre, x = c.toNat) ∨ (first.toNat ≤ x ∧ x ≤ last.toNat) ∨ ClassHas post x := by
  induction pre with
  | nil =>
    simp only [List.nil_append, ClassHas, classItems, if_true, List.mem_cons, exists_eq_or_imp,
      List.not_mem_nil, false_and, exists_false, false_or]
    rfl
  | cons c pre ih =>
    rw [List.mem_cons, not_or] at hpre
    have hih := ih hpre.2
    obtain ⟨d, e, body, heq, hd⟩ : ∃ d e body,
        pre ++ first :: '-' :: last :: post = d :: e :: body ∧ d ≠ '-' := by
      cases pre with
      | nil => exact ⟨first, '-', last :: post, rfl, hfirst⟩
      | cons d pre =>
        rw [List.mem_cons, not_or] at hpre
        cases pre with
        | nil => exact ⟨d, first, '-' :: last :: post, rfl, Ne.symm hpre.2.1⟩
        | cons e pre => exact ⟨d, e, _, rfl, Ne.symm hpre.2.1⟩
    rw [List.cons_append, heq, classHas_cons hd, ← heq, hih]
    simp only [List.mem_cons, exists_eq_or_imp, or_assoc]

/-! ## Keys in order -/

/-- If a key is `-`, it is the last one, or `,` and `.` are keys, too. -/
def DashKeys (keys : List Char) : Prop :=
  '-' ∈ keys → (∀ c ∈ keys, c ≤ '-') ∨ (',' ∈ keys ∧ '.' ∈ keys)

lemma char_lt_iff {c d : Char} : c < d ↔ c.toNat < d.toNat := Iff.rfl

lemma char_le_iff {c d : Char} : c ≤ d ↔ c.toNat ≤ d.toNat := Iff.rfl

section Keys

variable {keys : List Char}

/-- The last character in front of the `-`. -/
lemma exists_first (keys : List Char) (hsorted : keys.Pairwise (· < ·)) :
    ∃ pre first, '"' :: keys = pre ++ [first] ∧ (∀ c ∈ keys, c ≤ first) ∧
      (first = '"' ∨ first ∈ keys) := by
  rcases List.eq_nil_or_concat keys with rfl | ⟨pre, first, rfl⟩
  · exact ⟨[], '"', rfl, fun c hc => absurd hc List.not_mem_nil, .inl rfl⟩
  · rw [List.concat_eq_append] at hsorted ⊢
    refine ⟨'"' :: pre, first, rfl, fun c hc => ?_, .inr (by simp)⟩
    rcases List.mem_append.1 hc with hc | hc
    · exact le_of_lt ((List.pairwise_append.1 hsorted).2.2 c hc first (List.mem_singleton_self _))
    · exact le_of_eq (List.mem_singleton.1 hc)

lemma classHas_dash (hsorted : keys.Pairwise (· < ·)) {before after : List Char} {last : Char}
    (heq : keys = before ++ '-' :: last :: after) :
    ∃ pre first, '"' :: before = pre ++ [first] ∧ (∀ c ∈ before, c ≤ first) ∧ first < '-' ∧
      '-' < last ∧ (∀ c ∈ before, c < '-') ∧ (∀ c ∈ after, last < c) ∧
      ∀ x, ClassHas ('"' :: keys) x ↔ (∃ c ∈ pre, x = c.toNat) ∨
        (first.toNat ≤ x ∧ x ≤ last.toNat) ∨ ∃ c ∈ after, x = c.toNat := by
  subst heq
  obtain ⟨hbefore, hrest, hcross⟩ := List.pairwise_append.1 hsorted
  obtain ⟨hdash, hrest⟩ := List.pairwise_cons.1 hrest
  obtain ⟨hlast, -⟩ := List.pairwise_cons.1 hrest
  obtain ⟨pre, first, hpre, hle, hfirst⟩ := exists_first before hbefore
  have hlt : ∀ c ∈ before, c < '-' := fun c hc => hcross c hc '-' List.mem_cons_self
  have hfirst' : first < '-' := by
    rcases hfirst with rfl | hmem
    · decide
    · exact hlt first hmem
  have hlast' : '-' < last := hdash last List.mem_cons_self
  have hnot : '-' ∉ pre := by
    intro hmem
    have hmem' : '-' ∈ '"' :: before := by
      rw [hpre]
      exact List.mem_append_left _ hmem
    rcases List.mem_cons.1 hmem' with h | h
    · exact absurd h (by decide)
    · exact lt_irrefl _ (hlt _ h)
  have hnot' : '-' ∉ after := fun hmem => lt_asymm hlast' (hlast _ hmem)
  refine ⟨pre, first, hpre, hle, hfirst', hlast', hlt, hlast, fun x => ?_⟩
  have hbody : '"' :: (before ++ '-' :: last :: after) = pre ++ first :: '-' :: last :: after := by
    rw [← List.cons_append, hpre, List.append_assoc]
    rfl
  rw [hbody, classHas_range hnot hfirst'.ne,
    classHas_of_no_range fun h => hnot' (List.mem_of_mem_tail (List.mem_of_mem_dropLast h))]

lemma dash_cases (keys : List Char) :
    '-' ∉ keys.dropLast ∨ ∃ before last after, keys = before ++ '-' :: last :: after := by
  by_cases h : '-' ∈ keys.dropLast
  · obtain ⟨before, after, heq⟩ := List.append_of_mem h
    have hne : keys ≠ [] := by
      rintro rfl
      cases h
    have hkeys := List.dropLast_append_getLast hne
    rw [heq, List.append_assoc, List.cons_append] at hkeys
    obtain ⟨last, after', hlast⟩ := List.exists_cons_of_ne_nil
      (List.append_ne_nil_of_right_ne_nil after (List.cons_ne_nil (keys.getLast hne) []))
    exact .inr ⟨before, last, after', by rw [← hlast, hkeys]⟩
  · exact .inl h

lemma classHas_key (hsorted : keys.Pairwise (· < ·)) {c : Char} (hc : c ∈ keys) : ClassHas ('"' :: keys) c.toNat := by
  rcases dash_cases keys with h | ⟨before, last, after, heq⟩
  · have hhas := classHas_of_no_range (show '-' ∉ ('"' :: keys).tail.dropLast from h) (x := c.toNat)
    exact hhas.2 ⟨c, List.mem_cons_of_mem _ hc, rfl⟩
  · obtain ⟨pre, first, hpre, -, hfirst, hlast, -, -, hhas⟩ := classHas_dash hsorted heq
    have hle := (hfirst.trans hlast).le
    rw [hhas]
    rw [heq] at hc
    rcases List.mem_append.1 hc with hc | hc
    · have hmem : c ∈ pre ++ [first] := by
        rw [← hpre]
        exact List.mem_cons_of_mem _ hc
      rcases List.mem_append.1 hmem with hmem | hmem
      · exact .inl ⟨c, hmem, rfl⟩
      · obtain rfl := List.mem_singleton.1 hmem
        exact .inr (.inl ⟨le_rfl, hle⟩)
    · rcases List.mem_cons.1 hc with rfl | hc
      · exact .inr (.inl ⟨hfirst.le, hlast.le⟩)
      · rcases List.mem_cons.1 hc with rfl | hc
        · exact .inr (.inl ⟨hle, le_rfl⟩)
        · exact .inr (.inr ⟨c, hc, rfl⟩)

/-- Of the characters that keys can have, the class has the keys only, exactly when `-` is no key,
or the last one, or stands between `,` and `.`. -/
lemma classHas_keys_iff (hsorted : keys.Pairwise (· < ·)) :
    (∀ c, KeyChar c → ClassHas ('"' :: keys) c.toNat → c ∈ keys) ↔ DashKeys keys := by
  rcases dash_cases keys with h | ⟨before, last, after, heq⟩
  · refine iff_of_true (fun c hc hhas => ?_) fun hdash => .inl fun c hc => ?_
    · have hitems := classHas_of_no_range (show '-' ∉ ('"' :: keys).tail.dropLast from h) (x := c.toNat)
      obtain ⟨d, hd, hcd⟩ := hitems.1 hhas
      obtain rfl := Char.toNat_inj.1 hcd
      exact (List.mem_cons.1 hd).resolve_left hc.2.2.1
    · have hne : keys ≠ [] := by
        rintro rfl
        cases hc
      have hlast := List.dropLast_append_getLast hne
      rw [← hlast] at hdash hc hsorted
      have hget := List.mem_singleton.1 ((List.mem_append.1 hdash).resolve_left h)
      rw [hget]
      rcases List.mem_append.1 hc with hc | hc
      · exact le_of_lt ((List.pairwise_append.1 hsorted).2.2 c hc _ (List.mem_singleton_self _))
      · exact le_of_eq (List.mem_singleton.1 hc)
  · obtain ⟨pre, first, hpre, hle, hfirst, hlast, hbefore, hafter, hhas⟩ := classHas_dash hsorted heq
    have hdash : '-' ∈ keys := by
      rw [heq]
      simp
    have hmem_last : last ∈ keys := by
      rw [heq]
      simp
    have hfirst_le : first.toNat < 45 := char_lt_iff.1 hfirst
    have hlast_ge : 45 < last.toNat := char_lt_iff.1 hlast
    constructor
    · intro h _
      refine .inr ⟨h ',' (by decide) ((hhas _).2 (.inr (.inl ?_))),
        h '.' (by decide) ((hhas _).2 (.inr (.inl ?_)))⟩
      · exact ⟨Nat.le_of_lt_succ hfirst_le, (show 44 ≤ 45 by decide).trans hlast_ge.le⟩
      · exact ⟨hfirst_le.le.trans (by decide), hlast_ge⟩
    · intro h c hc hclass
      rcases h hdash with hall | ⟨hcomma, hdot⟩
      · exact absurd hlast (not_lt.2 (hall last hmem_last))
      rcases (hhas _).1 hclass with ⟨d, hd, hcd⟩ | ⟨hlow, hhigh⟩ | ⟨d, hd, hcd⟩
      · obtain rfl := Char.toNat_inj.1 hcd
        have hmem : c ∈ '"' :: before := by
          rw [hpre]
          exact List.mem_append_left _ hd
        rw [heq]
        exact List.mem_append_left _ ((List.mem_cons.1 hmem).resolve_left hc.2.2.1)
      · -- the range is `,-.`
        have hcomma' : ',' ≤ first := by
          rw [heq] at hcomma
          rcases List.mem_append.1 hcomma with hmem | hmem
          · exact hle _ hmem
          · exfalso
            rcases List.mem_cons.1 hmem with hmem | hmem
            · exact absurd hmem (by decide)
            · rcases List.mem_cons.1 hmem with rfl | hmem
              · exact absurd hlast (by decide)
              · exact absurd (hlast.trans (hafter _ hmem)) (by decide)
        have hdot' : last ≤ '.' := by
          rw [heq] at hdot
          rcases List.mem_append.1 hdot with hmem | hmem
          · exact absurd (hbefore _ hmem) (by decide)
          · rcases List.mem_cons.1 hmem with hmem | hmem
            · exact absurd hmem (by decide)
            · rcases List.mem_cons.1 hmem with rfl | hmem
              · exact le_rfl
              · exact (hafter _ hmem).le
        have hlow' : 44 ≤ c.toNat := (char_le_iff.1 hcomma').trans hlow
        have hhigh' : c.toNat ≤ 46 := hhigh.trans (char_le_iff.1 hdot')
        obtain h44 | h45 | h46 : c.toNat = 44 ∨ c.toNat = 45 ∨ c.toNat = 46 := by omega
        · rwa [Char.toNat_inj.1 (h44.trans (show 44 = ','.toNat from rfl))]
        · rwa [Char.toNat_inj.1 (h45.trans (show 45 = '-'.toNat from rfl))]
        · rwa [Char.toNat_inj.1 (h46.trans (show 46 = '.'.toNat from rfl))]
      · obtain rfl := Char.toNat_inj.1 hcd
        rw [heq]
        simp [hd]

end Keys

end IFairy.JsonSchema

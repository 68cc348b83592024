import IFairy.Json.PatternLang

/-!
# Joined sequences

What `join_seq` makes of a sequence of literals, texts of rules and bars can be read as alternates,
and stands for the alternatives of the sequence (`SeqMeans.alts`).  An item may also be gone: nothing
is left of an item that is repeated zero times.
-/

namespace IFairy.JsonSchema

open LlamaGrammar ContextFreeGrammar

variable {refs : List Char → Prop}

/-! ## Literals -/

/-- The text of a literal: only the backslash is escaped. -/
def literalText (v : List Char) : List Char :=
  v.flatMap fun c => if c = '\\' then ['\\', '\\'] else [c]

lemma literalText_append (v w : List Char) : literalText (v ++ w) = literalText v ++ literalText w :=
  List.flatMap_append

lemma literalText_eq_nil {v : List Char} : literalText v = [] ↔ v = [] := by
  cases v with
  | nil => exact iff_of_true rfl rfl
  | cons c v =>
    refine iff_of_false (fun h => ?_) (List.cons_ne_nil c v)
    rw [literalText, List.flatMap_cons, List.append_eq_nil_iff] at h
    obtain ⟨h, -⟩ := h
    split_ifs at h

lemma parseLiteral_literalText {v : List Char} (hv : '"' ∉ v) (rest : List Char) {fuel : ℕ}
    (hfuel : (literalText v).length < fuel) :
    parseLiteral fuel (literalText v ++ '"' :: rest) = .ok (v.map Char.toNat, rest) := by
  obtain ⟨fuel, rfl⟩ : ∃ n, fuel = n + 1 := ⟨fuel - 1, by omega⟩
  induction v generalizing fuel with
  | nil =>
    show parseLiteral _ ('"' :: rest) = _
    rw [parseLiteral, if_pos rfl]
    rfl
  | cons c v ih =>
    rw [List.mem_cons, not_or] at hv
    rw [literalText, List.flatMap_cons, List.length_append] at hfuel
    obtain ⟨fuel, rfl⟩ : ∃ n, fuel = n + 1 := ⟨fuel - 1, by
      split_ifs at hfuel <;> simp only [List.length_cons, List.length_nil] at hfuel <;> omega⟩
    have hrest : parseLiteral (fuel + 1) (literalText v ++ '"' :: rest) =
        .ok (v.map Char.toNat, rest) := by
      refine ih hv.2 fuel ?_
      rw [literalText]
      split_ifs at hfuel <;> simp only [List.length_cons, List.length_nil] at hfuel <;> omega
    have hread : ∀ pos, parseLiteral (fuel + 1 + 1)
        ((if c = '\\' then ['\\', '\\'] else [c]) ++ pos) =
          (parseLiteral (fuel + 1) pos).map fun r => (c.toNat :: r.1, r.2) := by
      intro pos
      split_ifs with hback
      · subst hback
        rfl
      · rw [List.singleton_append, parseLiteral, if_neg (Ne.symm hv.1), parseChar_plain hback]
        rfl
    have htext : literalText (c :: v) ++ '"' :: rest =
        (if c = '\\' then ['\\', '\\'] else [c]) ++ (literalText v ++ '"' :: rest) := by
      rw [literalText, List.flatMap_cons, List.append_assoc]
      rfl
    rw [htext, hread, hrest]
    rfl

lemma scans_literalText {v : List Char} (hne : v ≠ []) (hv : '"' ∉ v) :
    Scans refs true (toRule (literalText v, true)) fun _ => {v.map Char.toNat} := by
  have h : Scans refs (!(v.map Char.toNat).isEmpty) ('"' :: (literalText v ++ ['"'])) fun _ => _ :=
    scans_literal (literalText v) _ fun rest => parseLiteral_literalText hv rest (by
      rw [List.length_append]
      omega)
  rw [List.isEmpty_map, List.isEmpty_eq_false_iff.2 hne] at h
  exact h

lemma noSpace_literal (text : List Char) : NoSpace (toRule (text, true)) :=
  noSpace_of_head (by decide) _

/-! ## Joined texts -/

/-- The text is read as the first alternate, with the language `A`, and others, with `B`. -/
def Joined (refs : List Char → Prop) (text : List Char) (A B : Meaning → Language ℕ) : Prop :=
  ∃ sp first bars, text = sp ++ (first ++ bars) ∧ (∀ c ∈ sp, c = ' ') ∧ Alternate refs first A ∧
    ScansBars refs true bars B

section Joined

variable {text s : List Char} {A B F : Meaning → Language ℕ}

lemma joined_nil : Joined refs [] (fun _ => 1) fun _ => 0 :=
  ⟨[], [], [], rfl, fun _ h => absurd h List.not_mem_nil, alternate_nil, scansBars_nil true⟩

lemma Joined.alts (h : Joined refs text A B) : ScansAlts refs true text fun env => A env + B env := by
  obtain ⟨sp, first, bars, rfl, hsp, hfirst, hbars⟩ := h
  exact (hfirst.alts hbars fun _ => .inl rfl).spaces hsp

lemma space_cons {sp : List Char} (hsp : ∀ c ∈ sp, c = ' ') : ∀ c ∈ ' ' :: sp, c = ' ' := by
  intro c hc
  rcases List.mem_cons.1 hc with rfl | hc
  · rfl
  · exact hsp c hc

lemma Joined.cons {results : List (List Char)} (h : Joined refs ([' '].intercalate results) A B)
    (hs : Alternate refs s F) :
    Joined refs ([' '].intercalate (s :: results)) (fun env => F env * A env) B := by
  by_cases hne : results = []
  · -- there is nothing behind the item
    subst hne
    rw [List.intercalate_singleton]
    obtain ⟨sp, first, bars, htext, hsp, hfirst, hbars⟩ := h
    rw [List.intercalate_nil, eq_comm, List.append_eq_nil_iff, List.append_eq_nil_iff] at htext
    obtain ⟨rfl, rfl, rfl⟩ := htext
    rcases hfirst with ⟨-, rfl⟩ | ⟨hspace, -⟩
    · simp only [mul_one]
      exact ⟨[], s, [], (List.append_nil s).symm, hsp, hs, hbars⟩
    · exact absurd rfl hspace.1
  · obtain ⟨sp, first, bars, htext, hsp, hfirst, hbars⟩ := h
    have hjoin : [' '].intercalate (s :: results) = s ++ (' ' :: sp ++ (first ++ bars)) := by
      rw [List.intercalate_cons_of_ne_nil hne, htext, List.append_assoc]
      rfl
    rw [hjoin]
    rcases hs with ⟨rfl, rfl⟩ | ⟨hspace, hs⟩
    · simp only [one_mul]
      exact ⟨' ' :: sp, first, bars, rfl, space_cons hsp, hfirst, hbars⟩
    · rcases hfirst with ⟨rfl, rfl⟩ | ⟨hspace', hfirst⟩
      · simp only [mul_one]
        exact ⟨[], s, ' ' :: sp ++ bars, rfl, fun _ h => absurd h List.not_mem_nil,
          hs.alternate hspace, hbars.spaces (space_cons hsp)⟩
      · refine ⟨[], s ++ ' ' :: sp ++ first, bars, ?_, fun _ h => absurd h List.not_mem_nil, ?_,
          hbars⟩
        · simp only [List.nil_append, List.append_assoc]
        · refine (hs.append hfirst hspace' (List.cons_ne_nil ' ' sp) (space_cons hsp)).alternate ?_
          obtain ⟨c, cs, rfl⟩ := List.exists_cons_of_ne_nil hspace.1
          exact noSpace_of_head (hspace.2 c rfl) _

lemma Joined.bar {results : List (List Char)} (h : Joined refs ([' '].intercalate results) A B) :
    Joined refs ([' '].intercalate (['|'] :: results)) (fun _ => 1) fun env => A env + B env := by
  obtain ⟨sp, first, bars, htext, hsp, hfirst, hbars⟩ := h
  obtain ⟨sp', hsp', hjoin⟩ : ∃ sp', (∀ c ∈ sp', c = ' ') ∧
      [' '].intercalate (['|'] :: results) = '|' :: (sp' ++ first ++ bars) := by
    by_cases hne : results = []
    · subst hne
      rw [List.intercalate_nil] at htext
      refine ⟨sp, hsp, ?_⟩
      rw [List.intercalate_singleton, List.append_assoc, ← htext]
    · refine ⟨' ' :: sp, space_cons hsp, ?_⟩
      rw [List.intercalate_cons_of_ne_nil hne, htext]
      simp
  rw [hjoin]
  exact ⟨[], [], _, rfl, fun _ h => absurd h List.not_mem_nil, alternate_nil,
    hbars.cons hfirst hsp' fun _ => .inl rfl⟩

end Joined

/-! ## Sequences -/

/-- The sequence stands for a first alternative, with the language `A`, and others, with `B`. -/
inductive SeqMeans (refs : List Char → Prop) :
    List LiteralOrRule → (Meaning → Language ℕ) → (Meaning → Language ℕ) → Prop
  | nil : SeqMeans refs [] (fun _ => 1) fun _ => 0
  | literal {v : List Char} {seq : List LiteralOrRule} {A B : Meaning → Language ℕ} : v ≠ [] →
      '"' ∉ v → SeqMeans refs seq A B →
      SeqMeans refs ((literalText v, true) :: seq) (fun env => {v.map Char.toNat} * A env) B
  | rule {s : List Char} {seq : List LiteralOrRule} {F A B : Meaning → Language ℕ} :
      Alternate refs s F → SeqMeans refs seq A B →
      SeqMeans refs ((s, false) :: seq) (fun env => F env * A env) B
  | bar {seq : List LiteralOrRule} {A B : Meaning → Language ℕ} : SeqMeans refs seq A B →
      SeqMeans refs ((['|'], false) :: seq) (fun _ => 1) fun env => A env + B env

lemma singleton_mul_singleton {α : Type*} (s t : List α) : ({s} * {t} : Language α) = {s ++ t} := by
  ext u
  rw [Language.mem_mul]
  constructor
  · rintro ⟨_, rfl, _, rfl, rfl⟩
    rfl
  · rintro rfl
    exact ⟨s, rfl, t, rfl, rfl⟩

lemma Joined.flush {seq : List LiteralOrRule} {A B : Meaning → Language ℕ}
    (h : Joined refs ([' '].intercalate (seq.map toRule)) A B) {v : List Char} (hv : '"' ∉ v) :
    Joined refs ([' '].intercalate ((flushLiteral (literalText v) ++ seq).map toRule))
      (fun env => {v.map Char.toNat} * A env) B := by
  by_cases hne : v = []
  · subst hne
    have hone : ({[].map Char.toNat} : Language ℕ) = 1 := rfl
    simp only [hone, one_mul]
    exact h
  · rw [flushLiteral, if_neg fun hnil => hne (literalText_eq_nil.1 hnil), List.singleton_append,
      List.map_cons]
    exact h.cons ((scans_literalText hne hv).alternate (noSpace_literal _))

lemma SeqMeans.joined_mergeFrom {seq : List LiteralOrRule} {A B : Meaning → Language ℕ}
    (h : SeqMeans refs seq A B) {v : List Char} (hv : '"' ∉ v) :
    Joined refs ([' '].intercalate ((mergeFrom (literalText v) seq).map toRule))
      (fun env => {v.map Char.toNat} * A env) B := by
  induction h generalizing v with
  | nil =>
    have hnil : Joined refs ([' '].intercalate (([] : List LiteralOrRule).map toRule)) _ _ := joined_nil
    have := hnil.flush hv
    rwa [List.append_nil] at this
  | @literal w seq A B hne hw _ ih =>
    have hvw : '"' ∉ v ++ w := fun h => (List.mem_append.1 h).elim hv hw
    have := ih hvw
    simp only [List.map_append, ← singleton_mul_singleton, mul_assoc] at this
    rwa [literalText_append] at this
  | @rule s seq F A B hs _ ih =>
    have hrest := @ih [] List.not_mem_nil
    have hone : ({[].map Char.toNat} : Language ℕ) = 1 := rfl
    simp only [hone, one_mul] at hrest
    have hcons : Joined refs ([' '].intercalate (((s, false) :: mergeFrom [] seq).map toRule)) _ B :=
      hrest.cons hs
    exact hcons.flush hv
  | @bar seq A B _ ih =>
    have hrest := @ih [] List.not_mem_nil
    have hone : ({[].map Char.toNat} : Language ℕ) = 1 := rfl
    simp only [hone, one_mul] at hrest
    have hbar : Joined refs ([' '].intercalate (((['|'], false) :: mergeFrom [] seq).map toRule)) _ _ :=
      hrest.bar
    exact hbar.flush hv

theorem SeqMeans.alts {seq : List LiteralOrRule} {A B : Meaning → Language ℕ}
    (h : SeqMeans refs seq A B) :
    ScansAlts refs true (toRule (joinSeq seq)) fun env => A env + B env := by
  have hjoined := h.joined_mergeFrom (List.not_mem_nil (a := '"'))
  have hone : ({[].map Char.toNat} : Language ℕ) = 1 := rfl
  simp only [hone, one_mul] at hjoined
  exact hjoined.alts

end IFairy.JsonSchema

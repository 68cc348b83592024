import IFairy.Grammar.PlainTexts

/-!
# Rules that every schema uses

The rule `space` and the primitive rule `char`, with what they derive: a little white space, and one
character of a JSON string or one escape.
-/

namespace IFairy.JsonSchema

open LlamaGrammar ContextFreeGrammar

variable {refs : List Char → Prop}

lemma mem_blank {c : Char} (h : c ∈ [' ']) : c = ' ' := List.mem_singleton.1 h

/-! ## White space -/

/-- The name of the rule for white space. -/
def spaceName : List Char := "space".toList

lemma isWordChar_spaceName : ∀ c ∈ spaceName, isWordChar c = true := List.all_eq_true.1 rfl

/-- `SPACE_RULE`. -/
def spaceRule : List Char := "| \" \" | \"\\n\"\x7b1,2\x7d [ \\t]\x7b0,20\x7d".toList

/-- What `space` derives: nothing, a blank, or line breaks and an indentation. -/
def spaceLang : Language ℕ :=
  1 + ({[32]} + powers {[10]} (RepeatOp.between 1 2).counts *
    powers (chars fun c => ∃ i ∈ [(32, none), (9, none)], ItemHas i c)
      (RepeatOp.between 0 20).counts)

lemma scans_spaceName (hspace : refs spaceName) :
    Scans refs true spaceName fun env => env spaceName :=
  scans_name (List.cons_ne_nil _ _) isWordChar_spaceName hspace

lemma noSpace_spaceName : NoSpace spaceName :=
  noSpace_name (List.cons_ne_nil _ _) isWordChar_spaceName

lemma scansAlts_space : ScansAlts refs false spaceRule fun _ => spaceLang := by
  have hblank : Alternate refs _ _ := (scans_plainLiteral [' ']
    (List.forall_mem_singleton.2 (by decide))).alternate
    (noSpace_of_head (by decide) _)
  have hlines : Scans refs false _ _ := (scans_literal ['\\', 'n'] [10] fun _ => rfl).repeat
    (readsOperator_between 1 2 (by decide) (by decide)) ⟨by decide, by decide⟩
  have hindent : Scans refs false _ _ := (scans_items [' ', '\\', 't'] (32, none) [(9, none)]
    (by decide) fun _ => rfl).repeat (readsOperator_between 0 20 (by decide) (by decide))
    ⟨by decide, by decide⟩
  have hlast := (hlines.append hindent (noSpace_of_head (by decide) _) (List.cons_ne_nil ' ' [])
    fun _ => mem_blank).alternate (noSpace_of_head (by decide) _)
  have hbars := ((scansBars_nil false).cons hlast (fun _ => mem_blank) fun h => nomatch h).space
  have hall := alternate_nil.alts (hbars.cons hblank (fun _ => mem_blank) fun h => nomatch h)
    fun _ => .inr ⟨0, _, rfl⟩
  rw [add_zero] at hall
  exact hall

lemma forall_mem_powers {L : Language ℕ} {K : Set ℕ} {p : ℕ → Prop} (hL : ∀ s ∈ L, ∀ c ∈ s, p c) :
    ∀ s ∈ powers L K, ∀ c ∈ s, p c := by
  rintro s ⟨k, -, hs⟩
  induction k generalizing s with
  | zero =>
    rw [pow_zero] at hs
    obtain rfl := (Language.mem_one s).1 hs
    exact fun c hc => nomatch hc
  | succ k ih =>
    rw [pow_succ', Language.mem_mul] at hs
    obtain ⟨s₁, h₁, s₂, h₂, rfl⟩ := hs
    intro c hc
    rcases List.mem_append.1 hc with hc | hc
    · exact hL s₁ h₁ c hc
    · exact ih s₂ h₂ c hc

lemma nil_mem_spaceLang : [] ∈ spaceLang := .inl Language.nil_mem_one

lemma blank_of_mem_spaceLang {s : List ℕ} (hs : s ∈ spaceLang) : ∀ c ∈ s, c = 32 ∨ c = 10 ∨ c = 9 := by
  rcases hs with hs | rfl | hs
  · obtain rfl := (Language.mem_one s).1 hs
    exact fun c hc => nomatch hc
  · exact fun c hc => .inl (List.mem_singleton.1 hc)
  · obtain ⟨s₁, h₁, s₂, h₂, rfl⟩ := Language.mem_mul.1 hs
    intro c hc
    rcases List.mem_append.1 hc with hc | hc
    · refine forall_mem_powers (p := fun c => c = 32 ∨ c = 10 ∨ c = 9) ?_ s₁ h₁ c hc
      rintro s rfl c hc
      exact .inr (.inl (List.mem_singleton.1 hc))
    · refine forall_mem_powers (p := fun c => c = 32 ∨ c = 10 ∨ c = 9) ?_ s₂ h₂ c hc
      rintro s ⟨d, ⟨i, hi, hd⟩, rfl⟩ c hc
      obtain rfl := List.mem_singleton.1 hc
      simp only [List.mem_cons, List.not_mem_nil, or_false] at hi
      rcases hi with rfl | rfl
      · exact .inl (Nat.le_antisymm hd.2 hd.1)
      · exact .inr (.inr (Nat.le_antisymm hd.2 hd.1))

/-! ## Characters -/

/-- The rule `char` of `PRIMITIVE_RULES`. -/
def charRule : List Char :=
  "[^\"\\\\\\x7F\\x00-\\x1F] | [\\\\] ([\"\\\\bfnrt] | \"u\" [0-9a-fA-F]\x7b4\x7d)".toList

/-- What `char` derives. -/
def charLang : Language ℕ :=
  chars (fun c => ¬∃ i ∈ [(34, none), (92, none), (127, none), (0, some 31)], ItemHas i c) +
    chars (fun c => ∃ i ∈ [(92, none)], ItemHas i c) *
      (chars (fun c => ∃ i ∈ [(34, none), (92, none), (98, none), (102, none), (110, none),
          (114, none), (116, none)], ItemHas i c) +
        {[117]} * powers (chars fun c => ∃ i ∈ [(48, some 57), (97, some 102), (65, some 70)],
          ItemHas i c) (RepeatOp.exactly 4).counts)

lemma scansAlts_char : ScansAlts refs false charRule fun _ => charLang := by
  have hplain : Alternate refs _ _ := (scans_inverse_items ['"', '\\', '\\', '\\', 'x', '7', 'F',
    '\\', 'x', '0', '0', '-', '\\', 'x', '1', 'F'] (34, none) [(92, none), (127, none),
    (0, some 31)] fun _ => rfl).alternate (noSpace_of_head (by decide) _)
  have hback : Scans refs true _ _ :=
    scans_items ['\\', '\\'] (92, none) [] (by decide) fun _ => rfl
  have hescape : Alternate refs _ _ := (scans_items ['"', '\\', '\\', 'b', 'f', 'n', 'r', 't']
    (34, none) [(92, none), (98, none), (102, none), (110, none), (114, none), (116, none)]
    (by decide) fun _ => rfl).alternate (noSpace_of_head (by decide) _)
  have hu : Scans refs _ _ _ := scans_plainLiteral ['u']
    (List.forall_mem_singleton.2 (by decide))
  have hhex : Scans refs true _ _ := scans_items ['0', '-', '9', 'a', '-', 'f', 'A', '-', 'F']
    (48, some 57) [(97, some 102), (65, some 70)] (by decide) fun _ => rfl
  have hfour := hhex.repeat (readsOperator_exactly 4 (by decide)) (show 4 < 2 ^ 31 by decide)
  have hunicode := (hu.append hfour (noSpace_of_head (by decide) _) (List.cons_ne_nil ' ' [])
    fun _ => mem_blank).alternate (noSpace_of_head (by decide) _)
  have hgroup := (hescape.alts ((scansBars_nil true).cons hunicode (fun _ => mem_blank)
    fun h => nomatch h).space fun h => nomatch h).group
  have hsecond := (hback.append hgroup (noSpace_of_head (by decide) _) (List.cons_ne_nil ' ' [])
    fun _ => mem_blank).alternate (noSpace_of_head (by decide) _)
  have hall := hplain.alts ((scansBars_nil false).cons hsecond (fun _ => mem_blank)
    fun h => nomatch h).space fun h => nomatch h
  simp only [add_zero] at hall
  exact hall

lemma singleton_mem_charLang {c : ℕ} (h31 : 31 < c) (hquote : c ≠ 34) (hback : c ≠ 92)
    (hdelete : c ≠ 127) : [c] ∈ charLang := by
  refine .inl ⟨c, ?_, rfl⟩
  rintro ⟨i, hi, hc⟩
  simp only [List.mem_cons, List.not_mem_nil, or_false] at hi
  rcases hi with rfl | rfl | rfl | rfl
  · exact hquote (Nat.le_antisymm hc.2 hc.1)
  · exact hback (Nat.le_antisymm hc.2 hc.1)
  · exact hdelete (Nat.le_antisymm hc.2 hc.1)
  · exact absurd hc.2 (Nat.not_le.2 h31)

lemma length_of_mem_charLang {s : List ℕ} (hs : s ∈ charLang) : s.length = 1 ∨ 92 ∈ s := by
  rcases hs with ⟨c, -, rfl⟩ | hs
  · exact .inl rfl
  · obtain ⟨s₁, ⟨c, ⟨i, hi, hc⟩, rfl⟩, s₂, -, rfl⟩ := Language.mem_mul.1 hs
    obtain rfl := List.mem_singleton.1 hi
    exact .inr (List.mem_append_left _ (List.mem_singleton.2 (Nat.le_antisymm hc.1 hc.2)))

end IFairy.JsonSchema

import IFairy.Grammar.Advance

/-!
# The check for left recursion

`detectLeftRecursion` is a depth first search of the rules.  From a rule it goes on to the rules
referred to in front of one of its alternates, and past a reference only if the rule behind it has
an empty alternate (`LeadRef`).  It reports exactly the cycles of this relation
(`leftRecursionDetected_eq`), which is the relation between the nonterminals of the grammar that
skips the directly nullable ones (`leadRef_iff`).
-/

namespace IFairy.LlamaGrammar

open ContextFreeGrammar

/-! ## The search -/

/-- Some alternate of the rule is empty. -/
def hasEmpty (rules : Rules) (r : ℕ) : Bool := hasEmptyAlternate (rules.getD r []) true

/-- The references of the second loop of `detectLeftRecursion`. -/
def leadRefs (rules : Rules) : List GrammarElement → Bool → List ℕ
  | [], _ => []
  | e :: rest, recurse =>
    if e.type = .ruleRef ∧ recurse then e.value :: leadRefs rules rest (hasEmpty rules e.value)
    else if isEndOfSequence e then leadRefs rules rest true
    else leadRefs rules rest false

/-- The search goes on from a rule to another one. -/
def LeadRef (rules : Rules) (r q : ℕ) : Prop := q ∈ leadRefs rules (rules.getD r []) true

/-- What the flags say between two calls: rules marked to be empty have an empty alternate, and no
cycle is reached from a visited rule. -/
structure FlagsOk (rules : Rules) (s : DetectState) : Prop where
  mayBeEmpty : ∀ r, s.mayBeEmpty r = true → hasEmpty rules r = true
  visited : ∀ r, s.visited r = true → Acc (flip (LeadRef rules)) r

/-- A search that ends without a finding: no rule stays in progress and no flag is lost. -/
structure SearchedAll (rules : Rules) (s s' : DetectState) : Prop where
  ok : FlagsOk rules s'
  inProgress : s'.inProgress = s.inProgress
  mayBeEmpty : ∀ r, s.mayBeEmpty r = true → s'.mayBeEmpty r = true

/-- From `r` the search comes back to a rule in progress, or there is a cycle anyway. -/
def ReachesBack (rules : Rules) (s : DetectState) (r : ℕ) : Prop :=
  (∃ a, s.inProgress a = true ∧ Relation.ReflTransGen (LeadRef rules) r a) ∨
    ∃ a, Relation.TransGen (LeadRef rules) a a

/-- What a call of the search does. -/
def SearchOk (rules : Rules) (s : DetectState) (r : ℕ) (found : Bool × DetectState) : Prop :=
  (found.1 = true → ReachesBack rules s r) ∧
    (found.1 = false → SearchedAll rules s found.2 ∧ Acc (flip (LeadRef rules)) r ∧
      found.2.mayBeEmpty r = hasEmpty rules r)

variable {rules : Rules}

lemma ReachesBack.congr {s s' : DetectState} {r : ℕ} (h : ReachesBack rules s' r)
    (hs : s'.inProgress = s.inProgress) : ReachesBack rules s r := by
  rwa [ReachesBack, ← hs]

lemma recurseLoop_spec {detect : ℕ → DetectState → Except Halt (Bool × DetectState)}
    {P : ℕ → Bool} (es : List GrammarElement) {recurse : Bool}
    (hdetect : ∀ e ∈ es, e.type = .ruleRef → ∀ s, FlagsOk rules s → s.inProgress = P →
      ∃ found, detect e.value s = .ok found ∧ SearchOk rules s e.value found)
    {s : DetectState} (hs : FlagsOk rules s) (hP : s.inProgress = P) :
    ∃ found, recurseLoop detect es recurse s = .ok found ∧
      (found.1 = true → ∃ q ∈ leadRefs rules es recurse, ReachesBack rules s q) ∧
      (found.1 = false → SearchedAll rules s found.2 ∧
        ∀ q ∈ leadRefs rules es recurse, Acc (flip (LeadRef rules)) q) := by
  induction es generalizing recurse s with
  | nil =>
    refine ⟨(false, s), rfl, by simp, fun _ => ⟨⟨hs, rfl, fun _ h => h⟩, ?_⟩⟩
    simp [leadRefs]
  | cons e rest ih =>
    obtain ⟨he, hrest⟩ := List.forall_mem_cons.1 hdetect
    rw [recurseLoop, leadRefs]
    by_cases href : e.type = .ruleRef ∧ recurse = true
    · simp only [href, and_self, if_true]
      obtain ⟨found, hfound, hback, hall⟩ := he href.1 s hs hP
      cases hb : found.1 with
      | true =>
        refine ⟨(true, found.2), ?_, fun _ => ⟨_, List.mem_cons_self, hback hb⟩, by simp⟩
        rw [bind_eq_ok]
        exact ⟨found, hfound, by simp [hb]⟩
      | false =>
        obtain ⟨hsearched, hacc, hempty⟩ := hall hb
        obtain ⟨found', hfound', hback', hall'⟩ :=
          @ih (found.2.mayBeEmpty e.value) hrest _ hsearched.ok (hsearched.inProgress.trans hP)
        rw [hempty] at hback' hall'
        refine ⟨found', ?_, fun h => ?_, fun h => ?_⟩
        · rw [bind_eq_ok]
          exact ⟨found, hfound, by simpa [hb] using hfound'⟩
        · obtain ⟨q, hq, hreach⟩ := hback' h
          exact ⟨q, List.mem_cons_of_mem _ hq, hreach.congr hsearched.inProgress⟩
        · obtain ⟨hsearched', haccs⟩ := hall' h
          refine ⟨⟨hsearched'.ok, hsearched'.inProgress.trans hsearched.inProgress,
            fun r hr => hsearched'.mayBeEmpty r (hsearched.mayBeEmpty r hr)⟩, ?_⟩
          exact List.forall_mem_cons.2 ⟨hacc, haccs⟩
    · rw [if_neg href, if_neg href]
      split_ifs
      · exact ih hrest hs hP
      · exact ih hrest hs hP

lemma enter_mayBeEmpty (rules : Rules) (s : DetectState) (r q : ℕ) :
    (s.enter rules r).mayBeEmpty q = true ↔
      s.mayBeEmpty q = true ∨ q = r ∧ hasEmpty rules r = true := by
  rw [DetectState.enter, hasEmpty]
  cases hasEmptyAlternate (rules.getD r []) true <;> by_cases hq : q = r <;> simp [hq]

lemma FlagsOk.enter {s : DetectState} (hs : FlagsOk rules s) (r : ℕ) :
    FlagsOk rules (s.enter rules r) where
  mayBeEmpty := by
    intro q hq
    rcases (enter_mayBeEmpty rules s r q).1 hq with h | ⟨rfl, h⟩
    · exact hs.mayBeEmpty q h
    · exact h
  visited := hs.visited

lemma FlagsOk.leave {s : DetectState} (hs : FlagsOk rules s) {r : ℕ}
    (hr : Acc (flip (LeadRef rules)) r) : FlagsOk rules (s.leave r) where
  mayBeEmpty := hs.mayBeEmpty
  visited := by
    intro q hq
    by_cases hqr : q = r
    · exact hqr ▸ hr
    · exact hs.visited q (by simpa [DetectState.leave, hqr] using hq)

/-- Coming back to a rule in progress or to `r` itself from a rule that `r` leads to. -/
lemma ReachesBack.of_leadRef {s : DetectState} {r q : ℕ} (hq : LeadRef rules r q)
    (h : ReachesBack rules (s.enter rules r) q) : ReachesBack rules s r := by
  obtain ⟨a, ha, hqa⟩ | hcycle := h
  · by_cases har : a = r
    · subst har
      exact .inr ⟨a, .head' hq hqa⟩
    · exact .inl ⟨a, by simpa [DetectState.enter, har] using ha, hqa.head hq⟩
  · exact .inr hcycle

lemma card_inProgress_enter {s : DetectState} {n r : ℕ} (hr : r < n)
    (hin : ¬ s.inProgress r = true) :
    ((Finset.range n).filter fun a => (s.enter rules r).inProgress a = true).card =
      ((Finset.range n).filter fun a => s.inProgress a = true).card + 1 := by
  rw [← Finset.card_insert_of_notMem (a := r) (by simp [hin])]
  congr 1
  ext a
  by_cases har : a = r
  · subst har
    simp [DetectState.enter, hr]
  · simp [DetectState.enter, har]

lemma detectLeftRecursion_spec (hrefs : ∀ rule ∈ rules, ∀ e ∈ rule, e.type = .ruleRef →
    e.value < rules.length) {fuel r : ℕ} (hr : r < rules.length) {s : DetectState}
    (hs : FlagsOk rules s)
    (hfuel : rules.length <
      ((Finset.range rules.length).filter fun a => s.inProgress a = true).card + fuel) :
    ∃ found, detectLeftRecursion rules fuel r s = .ok found ∧ SearchOk rules s r found := by
  induction fuel generalizing r s with
  | zero =>
    have hle := Finset.card_filter_le (Finset.range rules.length) fun a => s.inProgress a = true
    rw [Finset.card_range] at hle
    omega
  | succ fuel ih =>
    rw [detectLeftRecursion]
    by_cases hin : s.inProgress r = true
    · rw [if_pos hin]
      exact ⟨(true, s), rfl, fun _ => .inl ⟨r, hin, .refl⟩, by simp⟩
    · rw [if_neg hin]
      obtain ⟨found, hfound, hback, hall⟩ := recurseLoop_spec
        (rules.getD r [])
        (P := (s.enter rules r).inProgress) (fun e he href s' hs' hP => by
          refine ih ?_ hs' ?_
          · rw [List.getD_eq_getElem?_getD, List.getElem?_eq_getElem hr] at he
            exact hrefs _ (List.getElem_mem hr) e he href
          · rw [hP, card_inProgress_enter hr hin]
            omega) (hs.enter r) rfl
      cases hb : found.1 with
      | true =>
        refine ⟨(true, found.2), bind_eq_ok.2 ⟨found, hfound, by simp [hb]⟩, fun _ => ?_, by simp⟩
        obtain ⟨q, hq, hreach⟩ := hback hb
        exact hreach.of_leadRef hq
      | false =>
        refine ⟨(false, found.2.leave r), bind_eq_ok.2 ⟨found, hfound, by simp [hb]⟩, by simp,
          fun _ => ?_⟩
        obtain ⟨hsearched, haccs⟩ := hall hb
        have hacc : Acc (flip (LeadRef rules)) r := Acc.intro r haccs
        refine ⟨⟨hsearched.ok.leave hacc, ?_, fun q hq => ?_⟩, hacc, ?_⟩
        · rw [DetectState.leave, hsearched.inProgress, DetectState.enter]
          simp only [Function.update_idem]
          rw [Function.update_eq_self_iff]
          simpa using hin
        · exact hsearched.mayBeEmpty q ((enter_mayBeEmpty rules s r q).2 (.inl hq))
        · rw [Bool.eq_iff_iff]
          refine ⟨hsearched.ok.mayBeEmpty r, fun h => hsearched.mayBeEmpty r ?_⟩
          exact (enter_mayBeEmpty rules s r r).2 (.inr ⟨rfl, h⟩)

lemma checkLoop_spec (hrefs : ∀ rule ∈ rules, ∀ e ∈ rule, e.type = .ruleRef →
    e.value < rules.length) {is : List ℕ} (his : ∀ i ∈ is, i < rules.length) {s : DetectState}
    (hs : FlagsOk rules s) (hin : s.inProgress = fun _ => false) :
    ∃ detected, checkLoop rules is s = .ok detected ∧
      (detected = true → ∃ r, Relation.TransGen (LeadRef rules) r r) ∧
      (detected = false → ∀ i ∈ is, Acc (flip (LeadRef rules)) i) := by
  induction is generalizing s with
  | nil => exact ⟨false, rfl, by simp, by simp⟩
  | cons i is ih =>
    obtain ⟨hi, his⟩ := List.forall_mem_cons.1 his
    rw [checkLoop]
    by_cases hv : s.visited i = true
    · rw [if_pos hv]
      obtain ⟨detected, h, hcycle, hacc⟩ := ih his hs hin
      exact ⟨detected, h, hcycle, fun hd => List.forall_mem_cons.2 ⟨hs.visited i hv, hacc hd⟩⟩
    · rw [if_neg hv]
      obtain ⟨found, hfound, hback, hall⟩ :=
        @detectLeftRecursion_spec _ hrefs (rules.length + 1) _ hi _ hs (by omega)
      cases hb : found.1 with
      | true =>
        refine ⟨true, bind_eq_ok.2 ⟨found, hfound, by simp [hb]⟩, fun _ => ?_, by simp⟩
        obtain ⟨a, ha, -⟩ | hcycle := hback hb
        · simp [hin] at ha
        · exact hcycle
      | false =>
        obtain ⟨hsearched, hi, -⟩ := hall hb
        obtain ⟨detected, h, hcycle, hacc⟩ := ih his hsearched.ok (hsearched.inProgress.trans hin)
        refine ⟨detected, bind_eq_ok.2 ⟨found, hfound, by simpa [hb] using h⟩, hcycle, fun hd => ?_⟩
        exact List.forall_mem_cons.2 ⟨hi, hacc hd⟩

/-! ## The relation of the grammar -/

/-- The elements from the start of each further alternate on. -/
def altSuffixes : List GrammarElement → List (List GrammarElement)
  | [] => []
  | e :: rest =>
    match e.type with
    | .endRule => []
    | .alt => rest :: altSuffixes rest
    | _ => altSuffixes rest

lemma map_altStarts (rule : Rule) (i : ℕ) :
    (altStarts i (rule.drop i)).map (fun j => rule.drop j) = altSuffixes (rule.drop i) := by
  induction hn : rule.length - i generalizing i with
  | zero =>
    rw [List.drop_of_length_le (by omega)]
    rfl
  | succ n ih =>
    have hi : i < rule.length := by omega
    rw [List.drop_eq_getElem_cons hi, altStarts, altSuffixes]
    cases (rule[i]).type <;> simp [ih (i + 1) (by omega)]

lemma exists_alternate_iff {r : ℕ} {P : List GrammarElement → Prop} :
    (∃ alt ∈ alternates rules r, P (suffix rules alt)) ↔
      P (rules.getD r []) ∨ ∃ t ∈ altSuffixes (rules.getD r []), P t := by
  have hmap := map_altStarts (rules.getD r []) 0
  rw [List.drop_zero] at hmap
  rw [← hmap, alternates]
  simp [suffix]

/-- `END` is the last element only. -/
def EndsOnce (es : List GrammarElement) : Prop := ∀ e ∈ es.dropLast, e.type ≠ .endRule

lemma EndsOnce.tail {e : GrammarElement} {rest : List GrammarElement} (h : EndsOnce (e :: rest)) :
    EndsOnce rest := by
  cases rest with
  | nil => simp [EndsOnce]
  | cons u us => exact fun x hx => h x (by simp [hx])

lemma EndsOnce.eq_nil {e : GrammarElement} {rest : List GrammarElement}
    (h : EndsOnce (e :: rest)) (he : e.type = .endRule) : rest = [] := by
  cases rest with
  | nil => rfl
  | cons u us => exact absurd he (h e (by simp))

/-- The elements begin with the end of an alternate. -/
def StartsAtEnd (es : List GrammarElement) : Prop := ∃ e ∈ es.head?, isEndOfSequence e = true

lemma hasEmptyAlternate_iff {es : List GrammarElement} (h : EndsOnce es) (atStart : Bool) :
    hasEmptyAlternate es atStart = true ↔
      atStart = true ∧ StartsAtEnd es ∨ ∃ t ∈ altSuffixes es, StartsAtEnd t := by
  induction es generalizing atStart with
  | nil => simp [hasEmptyAlternate, altSuffixes, StartsAtEnd]
  | cons e rest ih =>
    have hstart : StartsAtEnd (e :: rest) ↔ isEndOfSequence e = true := by simp [StartsAtEnd]
    rw [hasEmptyAlternate, altSuffixes, hstart]
    cases he : e.type with
    | endRule =>
      obtain rfl := h.eq_nil he
      cases atStart <;> simp [isEndOfSequence, he, hasEmptyAlternate]
    | alt => cases atStart <;> simp [isEndOfSequence, he, ih h.tail]
    | _ => simp [isEndOfSequence, he, ih h.tail]

lemma syms_eq_nil_iff {es : List GrammarElement} (hne : es ≠ [])
    (h : ∀ e ∈ es.head?, ¬ InsideClass e) : syms es = [] ↔ StartsAtEnd es := by
  cases es with
  | nil => exact absurd rfl hne
  | cons e rest =>
    have he : ¬ InsideClass e := h e rfl
    rw [syms]
    cases ht : e.type <;> simp [StartsAtEnd, isEndOfSequence, ht]
    · exact absurd (.inr ht) he
    · exact absurd (.inl ht) he

lemma altSuffixes_ne_nil {es : List GrammarElement}
    (h : ∃ e ∈ es.getLast?, e.type = .endRule) : ∀ t ∈ altSuffixes es, t ≠ [] := by
  induction es with
  | nil => simp [altSuffixes]
  | cons e rest ih =>
    have hrest : rest ≠ [] → ∃ e ∈ rest.getLast?, e.type = .endRule := by
      intro hne
      rwa [List.getLast?_cons_of_ne_nil hne] at h
    cases rest with
    | nil =>
      obtain ⟨x, hx, hend⟩ := h
      obtain rfl : e = x := by simpa using hx
      simp [altSuffixes, hend]
    | cons u us =>
      have ih := ih (hrest (by simp))
      rw [altSuffixes]
      cases e.type with
      | endRule => simp
      | alt => exact List.forall_mem_cons.2 ⟨by simp, ih⟩
      | _ => exact ih

variable (G : ParsedGrammar)

lemma mem_leadRefs_iff {es : List GrammarElement} (hends : EndsOnce es)
    (hchain : es.IsChain Follows) {recurse : Bool}
    (hstart : recurse = true → ∀ e ∈ es.head?, ¬ InsideClass e) {q : ℕ} :
    q ∈ leadRefs G.rules es recurse ↔
      recurse = true ∧ LeadsTo (g := G.cfg) (fun r => hasEmpty G.rules r = true) (syms es) q ∨
        ∃ t ∈ altSuffixes es, LeadsTo (g := G.cfg) (fun r => hasEmpty G.rules r = true) (syms t) q := by
  induction es generalizing recurse with
  | nil => simp [leadRefs, altSuffixes, syms, not_leadsTo_nil (g := G.cfg)]
  | cons e rest ih =>
    have hnext : e.type = .ruleRef ∨ e.type = .alt → ∀ u ∈ rest.head?, ¬ InsideClass u := by
      intro he u hu
      cases rest with
      | nil => simp at hu
      | cons w ws =>
        obtain rfl : w = u := by simpa using hu
        exact (List.isChain_cons_cons.1 hchain).1.not_insideClass he
    have ih := fun b hb => @ih hends.tail hchain.tail b hb
    rw [leadRefs, syms, altSuffixes]
    cases he : e.type with
    | ruleRef =>
      cases recurse with
      | true =>
        have hcons := leadsTo_nonterminal_iff (g := G.cfg) (r := e.value) (q := q)
          (w := syms rest) (P := fun r => hasEmpty G.rules r = true)
        simp only [and_self, if_true, List.mem_cons, true_and]
        rw [hcons, ih _ fun _ => hnext (.inl he), or_assoc]
      | false =>
        simp only [Bool.false_eq_true, and_false, if_false, isEndOfSequence, he, false_and,
          false_or]
        rw [ih false (by simp)]
        simp
    | alt =>
      simp only [reduceCtorEq, false_and, if_false, isEndOfSequence, he, if_true,
        not_leadsTo_nil (g := G.cfg), and_false, false_or, List.mem_cons, exists_eq_or_imp]
      rw [ih true fun _ => hnext (.inr he)]
      simp
    | endRule =>
      obtain rfl := hends.eq_nil he
      simp [isEndOfSequence, he, leadRefs, not_leadsTo_nil (g := G.cfg)]
    | charAlt =>
      have hrec : recurse = false := by
        by_contra hne
        exact hstart (by simpa using hne) e rfl (.inl he)
      simp only [reduceCtorEq, false_and, if_false, isEndOfSequence, he, hrec, Bool.false_eq_true,
        false_or]
      rw [ih false (by simp)]
      simp
    | charRngUpper =>
      have hrec : recurse = false := by
        by_contra hne
        exact hstart (by simpa using hne) e rfl (.inr he)
      simp only [reduceCtorEq, false_and, if_false, isEndOfSequence, he, hrec, Bool.false_eq_true,
        false_or]
      rw [ih false (by simp)]
      simp
    | _ =>
      simp only [reduceCtorEq, false_and, if_false, isEndOfSequence, he, Bool.false_eq_true,
        not_leadsTo_terminal (g := G.cfg), and_false, false_or]
      rw [ih false (by simp)]
      simp

variable {G}

lemma head_alternate {r : ℕ} {alt : Pos} (h : alt ∈ alternates G.rules r) :
    ∀ e ∈ (suffix G.rules alt).head?, ¬ InsideClass e := by
  intro e he
  have hnot := ParsedGrammar.not_insideClass_alternate h
  rw [elemAt] at hnot
  cases hs : suffix G.rules alt with
  | nil => simp [hs] at he
  | cons u us =>
    obtain rfl : u = e := by simpa [hs] using he
    simpa [hs] using hnot

lemma getD_rule_of_not_lt {r : ℕ} (hr : ¬ r < G.rules.length) : G.rules.getD r [] = [] := by
  rw [List.getD_eq_getElem?_getD, List.getElem?_eq_none (not_lt.1 hr), Option.getD_none]

lemma wellFormed_getD {r : ℕ} (hr : r < G.rules.length) :
    WellFormedRule G.rules.length (G.rules.getD r []) := by
  rw [List.getD_eq_getElem?_getD, List.getElem?_eq_getElem hr, Option.getD_some]
  exact G.wellFormed _ (List.getElem_mem hr)

lemma hasEmpty_iff {r : ℕ} : hasEmpty G.rules r = true ↔ G.cfg.DirectlyNullable r := by
  rw [DirectlyNullable, mem_cfg_rules, hasEmpty]
  simp only
  by_cases hr : r < G.rules.length
  · have hwf := wellFormed_getD hr
    rw [hasEmptyAlternate_iff hwf.ends_once]
    simp only [true_and, hr]
    rw [← exists_alternate_iff]
    refine exists_congr fun alt => and_congr_right fun halt => ?_
    have hne : suffix G.rules alt ≠ [] := by
      intro hnil
      have hex := (exists_alternate_iff (P := fun t => t = [])).1 ⟨alt, halt, hnil⟩
      obtain hnil | ⟨t, ht, hnil⟩ := hex
      · obtain ⟨e, he, -⟩ := hwf.ends
        rw [hnil] at he
        cases he
      · exact altSuffixes_ne_nil hwf.ends t ht hnil
    rw [← syms_eq_nil_iff hne (head_alternate halt), eq_comm]
  · simp only [hr, false_and, iff_false]
    rw [getD_rule_of_not_lt hr]
    simp [hasEmptyAlternate]

lemma leadRef_iff {r q : ℕ} :
    LeadRef G.rules r q ↔ G.cfg.LeftEdge G.cfg.DirectlyNullable r q := by
  have hP : (fun r => hasEmpty G.rules r = true) = G.cfg.DirectlyNullable :=
    funext fun r => propext hasEmpty_iff
  by_cases hr : r < G.rules.length
  · have hwf := wellFormed_getD hr
    rw [LeadRef, mem_leadRefs_iff G hwf.ends_once hwf.chain fun _ => hwf.starts, hP]
    rw [LeftEdge, exists_output_iff hr (P := fun w => LeadsTo G.cfg.DirectlyNullable w q)]
    simp only [true_and]
    exact (exists_alternate_iff (P := fun t => LeadsTo G.cfg.DirectlyNullable (syms t) q)).symm
  · rw [LeadRef, getD_rule_of_not_lt hr]
    simp only [leadRefs, List.not_mem_nil, false_iff]
    rintro ⟨rule, hrule, rfl, -⟩
    exact hr (mem_cfg_rules.1 hrule).1

/-- The check of a parsed grammar ends, and reports exactly the left recursion through rules that
have an empty alternate of their own. -/
theorem leftRecursionDetected_eq (G : ParsedGrammar) :
    ∃ detected, leftRecursionDetected G.rules = .ok detected ∧
      (detected = true ↔ ∃ r, G.cfg.DirectlyLeftRecursive r) := by
  have hcycle : (∃ r, G.cfg.DirectlyLeftRecursive r) ↔
      ∃ r, Relation.TransGen (LeadRef G.rules) r r := by
    have hrel : LeadRef G.rules = G.cfg.LeftEdge G.cfg.DirectlyNullable :=
      funext₂ fun r q => propext leadRef_iff
    rw [hrel]
    rfl
  obtain ⟨detected, h, hfound, hall⟩ := checkLoop_spec
    (fun rule hrule => (G.wellFormed rule hrule).refs)
    (fun i hi => List.mem_range.1 hi)
    (s := ⟨fun _ => false, fun _ => false, fun _ => false⟩) ⟨by simp, by simp⟩ rfl
  refine ⟨detected, h, ?_⟩
  rw [hcycle]
  refine ⟨hfound, fun ⟨r, hr⟩ => ?_⟩
  by_contra hd
  obtain ⟨q, hrq, -⟩ := Relation.TransGen.head'_iff.1 hr
  refine not_transGen_of_acc (hall (by simpa using hd) r (List.mem_range.2 ?_)) hr
  obtain ⟨rule, hrule, rfl, -⟩ := leadRef_iff.1 hrq
  exact (mem_cfg_rules.1 hrule).1

end IFairy.LlamaGrammar

import IFairy.Grammar.Parser
import IFairy.Grammar.RuleLanguage
import Mathlib.Tactic.NormNum

/-!
# Repetitions

`handle_repetitions` replaces the elements in front of an operator by copies of them and by
references to rules of its own, each of which repeats them once more or ends.  What is seen of
these rules later is that they are still there (`Later`).

The rewriting is right as long as the numbers fit an `int` and are in order
(`repeatsRight_iff`).  It does not look at the order: `S{3,2}` is three copies of `S`.  A number
from `2 ^ 31` on becomes another one, or no bound at all.
-/

namespace IFairy.LlamaGrammar

/-! ## States of the parser -/

namespace ParserState

/-- The rules of earlier symbols have not changed, nor their names. -/
structure Extends (p p' : ParserState) : Prop where
  names : p.symbolIds <+: p'.symbolIds
  rules : ∀ id < p.symbolIds.length, p'.rules.getD id [] = p.rules.getD id []

/-- The state `q` comes after `p'` and has the rules that were made up between `p` and `p'`. -/
structure Later (p p' q : ParserState) : Prop where
  names : p'.symbolIds <+: q.symbolIds
  rules : ∀ id name, p.symbolIds.length ≤ id → p'.symbolIds[id]? = some name → '_' ∈ name →
    q.rules.getD id [] = p'.rules.getD id []

variable {p p' p'' q : ParserState}

lemma Extends.refl (p : ParserState) : p.Extends p := ⟨List.prefix_rfl, fun _ _ => rfl⟩

lemma Extends.trans (h : p.Extends p') (h' : p'.Extends p'') : p.Extends p'' :=
  ⟨h.names.trans h'.names, fun id hid =>
    (h'.rules id (hid.trans_le h.names.length_le)).trans (h.rules id hid)⟩

lemma Later.refl (p p' : ParserState) : p.Later p' p' := ⟨List.prefix_rfl, fun _ _ _ _ _ => rfl⟩

lemma Later.left (h : p.Later p'' q) (h' : p'.Extends p'') : p.Later p' q := by
  refine ⟨h'.names.trans h.names, fun id name hid hname hgenerated => ?_⟩
  have hlt : id < p'.symbolIds.length := (List.getElem?_eq_some_iff.1 hname).1
  obtain ⟨more, hmore⟩ := h'.names
  have hname' : p''.symbolIds[id]? = some name := by
    rw [← hmore, List.getElem?_append_left hlt, hname]
  rw [h.rules id name hid hname' hgenerated, h'.rules id hlt]

lemma Later.right (h : p.Later p'' q) (h' : p.Extends p') : p'.Later p'' q :=
  ⟨h.names, fun id name hid => h.rules id name (h'.names.length_le.trans hid)⟩

lemma getD_addRule (p : ParserState) (id : ℕ) (rule : Rule) (j : ℕ) :
    (p.addRule id rule).rules.getD j [] = if j = id then rule else p.rules.getD j [] := by
  rw [addRule]
  simp only [List.getD_eq_getElem?_getD, List.getElem?_set, List.length_append,
    List.length_replicate]
  by_cases h : id = j
  · subst h
    have hlt : id < p.rules.length + (id + 1 - p.rules.length) := by omega
    rw [if_pos rfl, if_pos hlt, if_pos rfl, Option.getD_some]
  · rw [if_neg h, if_neg (Ne.symm h), List.getElem?_append]
    split_ifs with hj
    · rfl
    · rw [List.getElem?_eq_none (not_lt.1 hj), List.getElem?_replicate]
      split_ifs <;> rfl

@[simp] lemma symbolIds_addRule (p : ParserState) (id : ℕ) (rule : Rule) :
    (p.addRule id rule).symbolIds = p.symbolIds := rfl

lemma underscore_mem_generatedName (baseName : List Char) (id : ℕ) :
    '_' ∈ generatedName baseName id :=
  List.mem_append_right _ List.mem_cons_self

end ParserState

open ParserState

/-! ## The rules of a repetition -/

section RecRules

variable {ruleName : List Char} {prevRule : Rule} {maxTimes : ℤ} {p : ParserState}

/-- The reference in rule `i` of a repetition whose rules begin at `start`. -/
def recRef (maxTimes : ℤ) (start i : ℕ) : Option ℕ :=
  if maxTimes < 0 then some (start + i) else if 0 < i then some (start + i - 1) else none

lemma addRecRules_spec (ruleName : List Char) (prevRule : Rule) (maxTimes : ℤ) (p : ParserState)
    (n : ℕ) :
    let added := (List.range n).foldl (addRecRule ruleName prevRule maxTimes) (0, p)
    (0 < n → added.1 = p.symbolIds.length + n - 1) ∧
    added.2.symbolIds = p.symbolIds ++
      (List.range n).map (fun i => generatedName ruleName (p.symbolIds.length + i)) ∧
    ∀ id, added.2.rules.getD id [] =
      if p.symbolIds.length ≤ id ∧ id < p.symbolIds.length + n then
        recRule prevRule (recRef maxTimes p.symbolIds.length (id - p.symbolIds.length))
      else p.rules.getD id [] := by
  induction n with
  | zero =>
    refine ⟨fun h => absurd h (lt_irrefl 0), by simp, fun id => ?_⟩
    rw [if_neg (by omega)]
    rfl
  | succ n ih =>
    obtain ⟨hlast, hnames, hrules⟩ := ih
    simp only [List.range_succ, List.foldl_append, List.foldl_cons, List.foldl_nil]
    set s := (List.range n).foldl (addRecRule ruleName prevRule maxTimes) (0, p)
    have hlen : s.2.symbolIds.length = p.symbolIds.length + n := by
      rw [hnames, List.length_append, List.length_map, List.length_range]
    refine ⟨fun _ => ?_, ?_, fun id => ?_⟩
    · show s.2.symbolIds.length = _
      omega
    · show s.2.symbolIds ++ [generatedName ruleName s.2.symbolIds.length] = _
      rw [hlen, hnames, List.append_assoc, List.map_append]
      rfl
    · simp only [addRecRule, getD_addRule, generateSymbolId, hlen, hrules]
      by_cases hid : id = p.symbolIds.length + n
      · have href : (if 0 < n ∨ maxTimes < 0 then
            some (if maxTimes < 0 then p.symbolIds.length + n else s.1) else none) =
            recRef maxTimes p.symbolIds.length (id - p.symbolIds.length) := by
          rw [recRef, hid, Nat.add_sub_cancel_left]
          by_cases hneg : maxTimes < 0
          · simp [hneg]
          · by_cases hn : 0 < n
            · simp [hneg, hn, hlast hn]
            · simp [hneg, hn]
        rw [if_pos hid, href, if_pos ⟨by omega, by omega⟩]
      · rw [if_neg hid]
        by_cases hin : p.symbolIds.length ≤ id ∧ id < p.symbolIds.length + n
        · rw [if_pos hin, if_pos ⟨hin.1, by omega⟩]
        · rw [if_neg hin, if_neg (by omega)]

end RecRules

/-! ## What these rules derive -/

section RecLanguages

variable {rules : Rules} {prevRule : Rule} {ref : Option ℕ} {id : ℕ}

lemma symbols_optionalRef : Symbols (optionalRef ref) := by
  cases ref with
  | none => exact symbols_nil
  | some r => exact symbols_ref r

lemma exists_output_recRule (hprev : Symbols prevRule)
    (hid : rules.getD id [] = recRule prevRule ref) {w : List (Symbol CharClass ℕ)} :
    (∃ rule ∈ (cfg rules 0).rules, rule.input = id ∧ rule.output = w) ↔
      w = syms prevRule ++ syms (optionalRef ref) ∨ w = [] := by
  have hplain : Plain (prevRule ++ optionalRef ref) :=
    hprev.plain.append symbols_optionalRef.plain
  have hlt : id < rules.length := lt_length_of_getD (by rw [hid]; simp [recRule])
  have hends : ∀ e : GrammarElement, isEndOfSequence e = true →
      ∀ rest, syms (e :: rest) = [] ∧ StartsSymbol (e :: rest) := by
    intro e he rest
    constructor
    · rw [syms]
      cases he' : e.type <;> simp_all [isEndOfSequence]
    · rintro x hx (h | h) <;>
      · obtain rfl := Option.some.inj hx
        simp [isEndOfSequence, h] at he
  have halt := hends ⟨.alt, 0⟩ rfl [⟨.endRule, 0⟩]
  have hfirst : syms (recRule prevRule ref) = syms prevRule ++ syms (optionalRef ref) := by
    rw [recRule, syms_append hplain halt.2, halt.1, List.append_nil,
      syms_append hprev.plain symbols_optionalRef.starts]
  have hstarts : altStarts 0 (recRule prevRule ref) = [(prevRule ++ optionalRef ref).length + 1] := by
    rw [recRule, altStarts_append hplain, Nat.zero_add]
    rfl
  have hsecond : (recRule prevRule ref).drop ((prevRule ++ optionalRef ref).length + 1) =
      [⟨.endRule, 0⟩] := by
    rw [recRule, List.drop_append, List.drop_eq_nil_of_le (by simp), List.nil_append]
    simp
  rw [exists_output hlt, hid, hstarts]
  constructor
  · rintro ⟨i, hi, rfl⟩
    rcases List.mem_cons.1 hi with rfl | hi
    · exact .inl (by rw [List.drop_zero, hfirst])
    · obtain rfl := List.mem_singleton.1 hi
      exact .inr (by rw [hsecond, (hends ⟨.endRule, 0⟩ rfl []).1])
  · rintro (rfl | rfl)
    · exact ⟨0, List.mem_cons_self, by rw [List.drop_zero, hfirst]⟩
    · exact ⟨_, List.mem_cons_of_mem _ (List.mem_singleton_self _),
        by rw [hsecond, (hends ⟨.endRule, 0⟩ rfl []).1]⟩

open scoped Computability in
lemma ruleLang_recRule_self (hprev : Symbols prevRule)
    (hid : rules.getD id [] = recRule prevRule (some id)) :
    ruleLang rules id = (elemsLang rules prevRule)∗ :=
  ContextFreeGrammar.lang_repetition fun _ => exists_output_recRule hprev hid

lemma ruleLang_recRule (hprev : Symbols prevRule)
    (hid : rules.getD id [] = recRule prevRule ref) :
    ruleLang rules id = elemsLang rules prevRule * elemsLang rules (optionalRef ref) + 1 := by
  rw [elemsLang, elemsLang, ← ContextFreeGrammar.lang_append]
  exact ContextFreeGrammar.lang_option fun _ => exists_output_recRule hprev hid

/-- At most `n` repetitions. -/
def upTo (L : Language ℕ) (n : ℕ) : Language ℕ := {s | ∃ k ≤ n, s ∈ L ^ k}

lemma upTo_zero (L : Language ℕ) : upTo L 0 = 1 := by
  ext s
  constructor
  · rintro ⟨k, hk, hs⟩
    obtain rfl := Nat.le_zero.1 hk
    rwa [pow_zero] at hs
  · intro hs
    exact ⟨0, le_rfl, by rwa [pow_zero]⟩

lemma upTo_succ (L : Language ℕ) (n : ℕ) : upTo L (n + 1) = L * upTo L n + 1 := by
  ext s
  rw [Language.mem_add, Language.mem_mul]
  constructor
  · rintro ⟨k, hk, hs⟩
    cases k with
    | zero => exact .inr (by rwa [pow_zero] at hs)
    | succ k =>
      rw [pow_succ', Language.mem_mul] at hs
      obtain ⟨s₁, h₁, s₂, h₂, rfl⟩ := hs
      exact .inl ⟨s₁, h₁, s₂, ⟨k, Nat.le_of_succ_le_succ hk, h₂⟩, rfl⟩
  · rintro (⟨s₁, h₁, s₂, ⟨k, hk, h₂⟩, rfl⟩ | hs)
    · exact ⟨k + 1, Nat.succ_le_succ hk, by
        rw [pow_succ', Language.mem_mul]
        exact ⟨s₁, h₁, s₂, h₂, rfl⟩⟩
    · exact ⟨0, Nat.zero_le _, by rwa [pow_zero]⟩

lemma ruleLang_recRules {maxTimes : ℤ} (hmax : 0 ≤ maxTimes) (hprev : Symbols prevRule) {start n : ℕ}
    (hrules : ∀ i < n, rules.getD (start + i) [] = recRule prevRule (recRef maxTimes start i)) :
    ∀ i < n, ruleLang rules (start + i) = upTo (elemsLang rules prevRule) (i + 1) := by
  intro i
  induction i with
  | zero =>
    intro hi
    have hzero := hrules 0 hi
    rw [recRef, if_neg (not_lt.2 hmax), if_neg (lt_irrefl 0)] at hzero
    rw [ruleLang_recRule hprev hzero, upTo_succ, upTo_zero, optionalRef, elemsLang_nil]
  | succ i ih =>
    intro hi
    have hsucc := hrules (i + 1) hi
    rw [recRef, if_neg (not_lt.2 hmax), if_pos i.succ_pos] at hsucc
    rw [ruleLang_recRule hprev hsucc, upTo_succ, optionalRef, elemsLang_ref,
      show start + (i + 1) - 1 = start + i by omega, ih (by omega)]

end RecLanguages

/-! ## `handle_repetitions` -/

/-- How many copies of the repeated elements are always there. -/
def leastCopies (minTimes : ℤ) : ℕ := if minTimes = 0 then 0 else (minTimes - 1).toNat + 1

def copies (minTimes maxTimes : ℤ) : Set ℕ :=
  {k | leastCopies minTimes ≤ k ∧
    (0 ≤ maxTimes → k ≤ leastCopies minTimes + (maxTimes - minTimes).toNat)}

/-- The strings of a language, so often that `k ∈ K`. -/
def powers (L : Language ℕ) (K : Set ℕ) : Language ℕ := {s | ∃ k ∈ K, s ∈ L ^ k}

lemma pow_mul_upTo (L : Language ℕ) (m n : ℕ) :
    L ^ m * upTo L n = powers L {k | m ≤ k ∧ k ≤ m + n} := by
  ext s
  rw [Language.mem_mul]
  constructor
  · rintro ⟨s₁, h₁, s₂, ⟨k, hk, h₂⟩, rfl⟩
    refine ⟨m + k, ⟨Nat.le_add_right m k, Nat.add_le_add_left hk m⟩, ?_⟩
    rw [pow_add, Language.mem_mul]
    exact ⟨s₁, h₁, s₂, h₂, rfl⟩
  · rintro ⟨k, ⟨hmk, hkn⟩, hs⟩
    rw [← Nat.add_sub_cancel' hmk, pow_add, Language.mem_mul] at hs
    obtain ⟨s₁, h₁, s₂, h₂, rfl⟩ := hs
    exact ⟨s₁, h₁, s₂, ⟨k - m, by omega, h₂⟩, rfl⟩

open scoped Computability in
lemma pow_mul_kstar (L : Language ℕ) (m : ℕ) : L ^ m * L∗ = powers L {k | m ≤ k} := by
  ext s
  rw [Language.mem_mul]
  constructor
  · rintro ⟨s₁, h₁, s₂, h₂, rfl⟩
    rw [Language.kstar_eq_iSup_pow, Language.mem_iSup] at h₂
    obtain ⟨k, h₂⟩ := h₂
    refine ⟨m + k, Nat.le_add_right m k, ?_⟩
    rw [pow_add, Language.mem_mul]
    exact ⟨s₁, h₁, s₂, h₂, rfl⟩
  · rintro ⟨k, hmk, hs⟩
    rw [← Nat.add_sub_cancel' hmk, pow_add, Language.mem_mul] at hs
    obtain ⟨s₁, h₁, s₂, h₂, rfl⟩ := hs
    refine ⟨s₁, h₁, s₂, ?_, rfl⟩
    rw [Language.kstar_eq_iSup_pow, Language.mem_iSup]
    exact ⟨k - m, h₂⟩

lemma repeated_eq (before prevRule : Rule) (minTimes : ℤ) :
    (if minTimes = 0 then (before ++ prevRule).take before.length
      else before ++ prevRule ++ (List.replicate (minTimes - 1).toNat prevRule).flatten) =
      before ++ (List.replicate (leastCopies minTimes) prevRule).flatten := by
  rw [leastCopies]
  split_ifs
  · simp
  · rw [List.replicate_succ, List.flatten_cons, List.append_assoc]

/-- What `handle_repetitions` puts in the place of the elements derives so many of them. -/
lemma handleRepetitions_spec (ruleName : List Char) (before : Rule) {prevRule : Rule}
    (hne : prevRule ≠ []) (hprev : Symbols prevRule) (minTimes maxTimes : ℤ) (pos : List Char)
    (p : ParserState) :
    ∃ elems p', handleRepetitions ruleName before.length minTimes maxTimes pos (before ++ prevRule)
        p = .ok (before ++ elems, p') ∧
      Symbols elems ∧ p.Extends p' ∧
      ∀ q, p.Later p' q → elemsLang q.rules elems =
        powers (elemsLang q.rules prevRule) (copies minTimes maxTimes) := by
  have hlength : ¬before.length = (before ++ prevRule).length := by
    have := List.length_pos_iff.2 hne
    rw [List.length_append]
    omega
  set nOpt : ℤ := if maxTimes < 0 then 1 else maxTimes - minTimes with hnOpt
  obtain ⟨hlast, hnames, hrules⟩ :=
    addRecRules_spec ruleName prevRule maxTimes p nOpt.toNat
  set added := (List.range nOpt.toNat).foldl (addRecRule ruleName prevRule maxTimes) (0, p)
  have hcopies := symbols_replicate hprev (leastCopies minTimes)
  refine ⟨(List.replicate (leastCopies minTimes) prevRule).flatten ++
    optionalRef (if 0 < nOpt then some added.1 else none), added.2, ?_, ?_, ?_, ?_⟩
  · rw [handleRepetitions, if_neg hlength, List.drop_left]
    simp only [repeated_eq]
    rw [← hnOpt]
    split_ifs
    · rw [optionalRef, List.append_assoc]
    · rw [optionalRef, List.append_nil]
  · exact hcopies.append symbols_optionalRef
  · refine ⟨⟨_, hnames.symm⟩, fun id hid => ?_⟩
    rw [hrules, if_neg (by omega)]
  · intro q hq
    -- the new rules are still there
    have hnew : ∀ i < nOpt.toNat, q.rules.getD (p.symbolIds.length + i) [] =
        recRule prevRule (recRef maxTimes p.symbolIds.length i) := by
      intro i hi
      have hname : added.2.symbolIds[p.symbolIds.length + i]? =
          some (generatedName ruleName (p.symbolIds.length + i)) := by
        rw [hnames, List.getElem?_append_right (Nat.le_add_right _ _), Nat.add_sub_cancel_left]
        simp [hi]
      rw [hq.rules _ _ (Nat.le_add_right _ _) hname (underscore_mem_generatedName _ _), hrules,
        if_pos ⟨Nat.le_add_right _ _, by omega⟩, Nat.add_sub_cancel_left]
    rw [elemsLang_append hcopies.plain symbols_optionalRef.starts, elemsLang_replicate hprev]
    by_cases hneg : maxTimes < 0
    · have hone : nOpt = 1 := if_pos hneg
      have hself := hnew 0 (by rw [hone]; decide)
      rw [recRef, if_pos hneg] at hself
      have hadded : added.1 = p.symbolIds.length + 0 := by
        rw [hlast (by rw [hone]; decide), hone]
        rfl
      rw [if_pos (by rw [hone]; decide), optionalRef, elemsLang_ref, hadded,
        ruleLang_recRule_self hprev hself, pow_mul_kstar]
      congr 1
      ext k
      exact ⟨fun h => ⟨h, fun h' => absurd hneg (not_lt.2 h')⟩, fun h => h.1⟩
    · have hmax := not_lt.1 hneg
      have hdiff : nOpt = maxTimes - minTimes := if_neg hneg
      have hopt : elemsLang q.rules (optionalRef (if 0 < nOpt then some added.1 else none)) =
          upTo (elemsLang q.rules prevRule) nOpt.toNat := by
        split_ifs with hpos
        · have hn : 0 < nOpt.toNat := by omega
          obtain ⟨n, hn'⟩ : ∃ n, nOpt.toNat = n + 1 := ⟨nOpt.toNat - 1, by omega⟩
          rw [optionalRef, elemsLang_ref, hlast hn, hn',
            show p.symbolIds.length + (n + 1) - 1 = p.symbolIds.length + n by omega]
          exact ruleLang_recRules hmax hprev hnew n (by omega)
        · rw [optionalRef, elemsLang_nil, show nOpt.toNat = 0 by omega, upTo_zero]
      rw [hopt, pow_mul_upTo, hdiff]
      congr 1
      ext k
      exact ⟨fun h => ⟨h.1, fun _ => h.2⟩, fun h => ⟨h.1, h.2 hmax⟩⟩

/-! ## Operators -/

/-- The operators `*`, `+`, `?`, `{m}`, `{m,}` and `{m,n}`. -/
inductive RepeatOp
  | star
  | plus
  | opt
  | exactly (m : ℕ)
  | atLeast (m : ℕ)
  | between (m n : ℕ)
deriving DecidableEq

namespace RepeatOp

/-- `min_times` and `max_times`. -/
def bounds : RepeatOp → ℤ × ℤ
  | star => (0, -1)
  | plus => (1, -1)
  | opt => (0, 1)
  | exactly m => (toInt32 m, toInt32 m)
  | atLeast m => (toInt32 m, -1)
  | between m n => (toInt32 m, toInt32 n)

/-- `std::stoul` accepts the numbers. -/
def Accepted : RepeatOp → Prop
  | star | plus | opt => True
  | exactly m | atLeast m => m < 2 ^ 64
  | between m n => m < 2 ^ 64 ∧ n < 2 ^ 64

/-- How often an operator should repeat; never, if its numbers are not in order. -/
def counts : RepeatOp → Set ℕ
  | star => Set.univ
  | plus => {k | 1 ≤ k}
  | opt => {k | k ≤ 1}
  | exactly m => {m}
  | atLeast m => {k | m ≤ k}
  | between m n => {k | m ≤ k ∧ k ≤ n}

/-- The numbers fit an `int` and are in order. -/
def Fits : RepeatOp → Prop
  | star | plus | opt => True
  | exactly m | atLeast m => m < 2 ^ 31
  | between m n => m ≤ n ∧ n < 2 ^ 31

/-- In every place and behind all elements that an operator can follow: what replaces them derives
their repetitions, as often as it should.  Where there is no such number, rejecting is right, too. -/
def RepeatsRight (op : RepeatOp) : Prop :=
  ∀ (ruleName : List Char) (before prevRule : Rule) (pos : List Char) (p : ParserState),
    prevRule ≠ [] → Symbols prevRule →
      (op.counts = ∅ ∧ ∃ e, handleRepetitions ruleName before.length op.bounds.1 op.bounds.2 pos
        (before ++ prevRule) p = .error e) ∨
      ∃ elems p', handleRepetitions ruleName before.length op.bounds.1 op.bounds.2 pos
          (before ++ prevRule) p = .ok (before ++ elems, p') ∧
        ∀ q, p.Later p' q →
          elemsLang q.rules elems = powers (elemsLang q.rules prevRule) op.counts

/-! ## When the rewriting is right -/

/-- The element of one character, `a`. -/
lemma elemsLang_char (rules : Rules) (c : ℕ) :
    elemsLang rules [⟨.char, c⟩] = ContextFreeGrammar.chars (· = c) := by
  have hclass : CharClass.Has (classOf [⟨.char, c⟩]) = fun d => d = c := by
    funext d
    simp [classOf, classRanges, rangeOf, CharClass.Has, CharRange.Has, isPositiveChar]
    omega
  have hsyms : syms [⟨.char, c⟩] = [.terminal (classOf [⟨.char, c⟩])] := rfl
  rw [elemsLang, hsyms, ContextFreeGrammar.lang_terminal, hclass]

lemma mem_chars_pow {c k : ℕ} {s : List ℕ} :
    s ∈ (ContextFreeGrammar.chars (· = c) : Language ℕ) ^ k ↔ s = List.replicate k c := by
  induction k generalizing s with
  | zero => rw [pow_zero, Language.mem_one, List.replicate_zero]
  | succ k ih =>
    rw [pow_succ', Language.mem_mul, List.replicate_succ]
    constructor
    · rintro ⟨s₁, ⟨d, rfl, rfl⟩, s₂, h₂, rfl⟩
      rw [ih.1 h₂]
      rfl
    · rintro rfl
      exact ⟨[c], ⟨c, rfl, rfl⟩, _, ih.2 rfl, rfl⟩

lemma powers_char_inj {c : ℕ} {K K' : Set ℕ}
    (h : powers (ContextFreeGrammar.chars (· = c)) K = powers (ContextFreeGrammar.chars (· = c)) K') :
    K = K' := by
  have hmem : ∀ K : Set ℕ, ∀ k, List.replicate k c ∈
      powers (ContextFreeGrammar.chars (· = c)) K ↔ k ∈ K := by
    intro K k
    constructor
    · rintro ⟨j, hj, hs⟩
      have hlength := congrArg List.length (mem_chars_pow.1 hs)
      rw [List.length_replicate, List.length_replicate] at hlength
      rwa [hlength]
    · exact fun hk => ⟨k, hk, mem_chars_pow.2 rfl⟩
  ext k
  rw [← hmem K, h, hmem K']

lemma repeatsRight_iff_copies (op : RepeatOp) :
    op.RepeatsRight ↔ copies op.bounds.1 op.bounds.2 = op.counts := by
  constructor
  · intro h
    have hchar : Symbols [⟨.char, 97⟩] :=
      ⟨by simp [Plain, isEndOfSequence], by simp [StartsSymbol, InsideClass]⟩
    obtain ⟨elems, p', hok, -, -, hlang⟩ := handleRepetitions_spec [] []
      (List.cons_ne_nil _ _) hchar op.bounds.1 op.bounds.2 [] ⟨[], []⟩
    obtain ⟨-, e, herror⟩ | ⟨elems', p'', hok', hlang'⟩ :=
      h [] [] [⟨.char, 97⟩] [] ⟨[], []⟩ (List.cons_ne_nil _ _) hchar
    · rw [hok] at herror
      cases herror
    · rw [hok] at hok'
      obtain ⟨rfl, rfl⟩ := Prod.ext_iff.1 (Except.ok.inj hok')
      have heq := (hlang p' (.refl _ _)).symm.trans (hlang' p' (.refl _ _))
      rw [elemsLang_char] at heq
      exact powers_char_inj heq
  · intro h ruleName before prevRule pos p hne hprev
    obtain ⟨elems, p', hok, -, -, hlang⟩ := handleRepetitions_spec ruleName before hne hprev
      op.bounds.1 op.bounds.2 pos p
    exact .inr ⟨elems, p', hok, fun q hq => by rw [hlang q hq, h]⟩

lemma toInt32_eq (n : ℕ) : toInt32 n =
    if (n : ℤ) % 4294967296 < 2147483648 then (n : ℤ) % 4294967296
    else (n : ℤ) % 4294967296 - 4294967296 := by
  have h32 : ((2 ^ 32 : ℕ) : ℤ) = 4294967296 := by norm_num
  unfold toInt32 Int.bmod
  simp only [h32]
  rfl

lemma toInt32_of_lt {n : ℕ} (h : n < 2 ^ 31) : toInt32 n = n := by
  rw [toInt32_eq]
  split_ifs <;> omega

lemma toInt32_bounds (n : ℕ) : -2147483648 ≤ toInt32 n ∧ toInt32 n < 2147483648 := by
  rw [toInt32_eq]
  split_ifs <;> omega

lemma leastCopies_natCast (n : ℕ) : leastCopies n = n := by
  rw [leastCopies]
  split_ifs <;> omega

lemma leastCopies_lt (n : ℕ) : leastCopies (toInt32 n) < 2 ^ 31 := by
  have := toInt32_bounds n
  rw [leastCopies]
  split_ifs <;> omega

lemma leastCopies_mem (minTimes maxTimes : ℤ) :
    leastCopies minTimes ∈ copies minTimes maxTimes :=
  ⟨le_rfl, fun _ => Nat.le_add_right _ _⟩

lemma copies_eq_counts_iff (op : RepeatOp) :
    copies op.bounds.1 op.bounds.2 = op.counts ↔ op.Fits := by
  constructor
  · intro h
    have hleast : leastCopies op.bounds.1 ∈ op.counts := h ▸ leastCopies_mem _ _
    cases op with
    | star | plus | opt => trivial
    | exactly m | atLeast m =>
      have hlt := leastCopies_lt m
      by_contra hfits
      simp only [counts, bounds, Fits, Set.mem_singleton_iff, Set.mem_ofPred_eq] at hleast hfits
      omega
    | between m n =>
      have hlt := leastCopies_lt m
      simp only [counts, bounds, Set.mem_ofPred_eq] at hleast
      refine ⟨by omega, ?_⟩
      by_contra hn
      have hm : leastCopies (toInt32 m) = m := by
        rw [toInt32_of_lt (by omega), leastCopies_natCast]
      have hbound := toInt32_bounds n
      by_cases hneg : toInt32 n < 0
      · -- no upper bound is left
        have hmem : n + 1 ∈ copies (toInt32 m) (toInt32 n) :=
          ⟨by omega, fun h' => absurd hneg (not_lt.2 h')⟩
        have hcount : n + 1 ∈ (between m n).counts := h ▸ hmem
        exact absurd hcount.2 (by omega)
      · have hmem : n ∈ (between m n).counts := ⟨by omega, le_rfl⟩
        have hcopy : n ∈ copies (toInt32 m) (toInt32 n) := by
          rw [← h] at hmem
          exact hmem
        have hle := hcopy.2 (not_lt.1 hneg)
        rw [hm, toInt32_of_lt (show m < 2 ^ 31 by omega)] at hle
        omega
  · intro h
    ext k
    cases op with
    | star => simp [copies, bounds, counts, leastCopies]
    | plus => simp [copies, bounds, counts, leastCopies]
    | opt => simp [copies, bounds, counts, leastCopies]
    | exactly m =>
      simp only [copies, bounds, counts, toInt32_of_lt h, leastCopies_natCast, Set.mem_ofPred_eq,
        Set.mem_singleton_iff]
      omega
    | atLeast m =>
      simp only [copies, bounds, counts, toInt32_of_lt h, leastCopies_natCast, Set.mem_ofPred_eq]
      omega
    | between m n =>
      simp only [copies, bounds, counts, toInt32_of_lt (h.1.trans_lt h.2), toInt32_of_lt h.2,
        leastCopies_natCast, Set.mem_ofPred_eq]
      have := h.1
      omega

/-- An operator that the parser accepts repeats what it follows as often as it should exactly when
its numbers fit an `int` and are in order. -/
theorem repeatsRight_iff (op : RepeatOp) (_ : op.Accepted) : op.RepeatsRight ↔ op.Fits :=
  (repeatsRight_iff_copies op).trans (copies_eq_counts_iff op)

/-- `{2,3}` repeats two or three times. -/
theorem repeatsRight_two_three : (between 2 3).RepeatsRight :=
  (repeatsRight_iff (between 2 3) ⟨by decide, by decide⟩).2 ⟨by decide, by decide⟩

/-- `{3,2}` repeats three times, and `{0,4294967295}` has no upper bound. -/
theorem not_repeatsRight : ¬(between 3 2).RepeatsRight ∧ ¬(between 0 4294967295).RepeatsRight := by
  constructor
  · rw [repeatsRight_iff_copies, copies_eq_counts_iff]
    exact fun h => absurd h.1 (by decide)
  · rw [repeatsRight_iff_copies, copies_eq_counts_iff]
    exact fun h => absurd h.2 (by decide)

end RepeatOp

end IFairy.LlamaGrammar

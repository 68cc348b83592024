import IFairy.Grammar.GrammarText

/-!
# Literals and classes without escapes

What the parser makes of the characters between quotes or brackets when none of them is a backslash
or closes it.  In a class a `-` between two characters makes a range of them (`classItems`).  Lists
of alternates are joined by bars (`joinAlts`).
-/

namespace IFairy.LlamaGrammar

open ContextFreeGrammar

variable {refs : List Char → Prop}

lemma parseChar_plain {c : Char} (h : c ≠ '\\') (pos : List Char) :
    parseChar (c :: pos) = .ok (c.toNat, pos) := by
  unfold parseChar
  exact if_neg h

/-! ## Literals -/

lemma parseLiteral_plain {t : List Char} (ht : ∀ c ∈ t, c ≠ '"' ∧ c ≠ '\\') (rest : List Char)
    {fuel : ℕ} (hfuel : t.length < fuel) :
    parseLiteral fuel (t ++ '"' :: rest) = .ok (t.map Char.toNat, rest) := by
  obtain ⟨fuel, rfl⟩ : ∃ n, fuel = n + 1 := ⟨fuel - 1, by omega⟩
  induction t generalizing fuel with
  | nil =>
    rw [List.nil_append, parseLiteral, if_pos rfl]
    rfl
  | cons c t ih =>
    obtain ⟨hquote, hback⟩ := ht c List.mem_cons_self
    rw [List.length_cons] at hfuel
    obtain ⟨fuel, rfl⟩ : ∃ n, fuel = n + 1 := ⟨fuel - 1, by omega⟩
    rw [List.cons_append, parseLiteral, if_neg hquote, parseChar_plain hback]
    simp only [Except.bind]
    rw [ih (fun d hd => ht d (List.mem_cons_of_mem c hd)) fuel (by omega)]
    rfl

lemma scans_plainLiteral (t : List Char) (ht : ∀ c ∈ t, c ≠ '"' ∧ c ≠ '\\') :
    Scans refs (!t.isEmpty) ('"' :: (t ++ ['"'])) fun _ => {t.map Char.toNat} := by
  have h : Scans refs (!(t.map Char.toNat).isEmpty) ('"' :: (t ++ ['"'])) fun _ => _ :=
    scans_literal t _ fun rest => parseLiteral_plain ht rest (by
      rw [List.length_append]
      omega)
  rwa [List.isEmpty_map] at h

/-! ## Classes -/

/-- The characters and ranges of a class. -/
def classItems : List Char → List (ℕ × Option ℕ)
  | [] => []
  | [c] => [(c.toNat, none)]
  | [c, d] => [(c.toNat, none), (d.toNat, none)]
  | c :: d :: e :: rest =>
    if d = '-' then (c.toNat, some e.toNat) :: classItems rest
    else (c.toNat, none) :: classItems (d :: e :: rest)

def ItemHas (item : ℕ × Option ℕ) (c : ℕ) : Prop := item.1 ≤ c ∧ c ≤ item.2.getD item.1

def itemElems (type : GreType) (item : ℕ × Option ℕ) : Rule :=
  match item.2 with
  | none => [⟨type, item.1⟩]
  | some e => [⟨type, item.1⟩, ⟨.charRngUpper, e⟩]

def classElems : GreType → List (ℕ × Option ℕ) → Rule
  | _, [] => []
  | type, item :: items => itemElems type item ++ classElems .charAlt items

section Rounds

variable {c : Char} (hclose : c ≠ ']') (hback : c ≠ '\\') (fuel : ℕ) (type : GreType)
include hclose hback

/-- A character that no `-` follows. -/
lemma parseClass_single {pos : List Char} (hpos : pos.head? ≠ some '-') :
    parseClass (fuel + 1) type (c :: pos) =
      (parseClass fuel .charAlt pos).map fun r => (⟨type, c.toNat⟩ :: r.1, r.2) := by
  rw [parseClass, if_neg hclose, parseChar_plain hback]
  simp only [Except.bind]
  split
  · exact absurd rfl hpos
  · exact absurd rfl hpos
  · rfl

/-- A character with a `-` that ends the class. -/
lemma parseClass_last (rest : List Char) :
    parseClass (fuel + 1) type (c :: '-' :: ']' :: rest) =
      (parseClass fuel .charAlt ('-' :: ']' :: rest)).map
        fun r => (⟨type, c.toNat⟩ :: r.1, r.2) := by
  rw [parseClass, if_neg hclose, parseChar_plain hback]
  rfl

lemma parseClass_range {e : Char} (hclose' : e ≠ ']') (hback' : e ≠ '\\') (pos : List Char) :
    parseClass (fuel + 1) type (c :: '-' :: e :: pos) =
      (parseClass fuel .charAlt pos).map
        fun r => (⟨type, c.toNat⟩ :: ⟨.charRngUpper, e.toNat⟩ :: r.1, r.2) := by
  rw [parseClass, if_neg hclose, parseChar_plain hback]
  simp only [Except.bind]
  rw [if_neg hclose', parseChar_plain hback']

end Rounds

lemma map_ok_eq {α β : Type*} {x : Except String α} {a : α} (h : x = .ok a) (f : α → β) :
    x.map f = .ok (f a) := by
  rw [h]
  rfl

lemma parseClass_plain {body : List Char} (hbody : ∀ c ∈ body, c ≠ ']' ∧ c ≠ '\\')
    (rest : List Char) {fuel : ℕ} (hfuel : body.length < fuel) (type : GreType) :
    parseClass fuel type (body ++ ']' :: rest) = .ok (classElems type (classItems body), rest) := by
  obtain ⟨fuel, rfl⟩ : ∃ n, fuel = n + 1 := ⟨fuel - 1, by omega⟩
  induction body using classItems.induct generalizing fuel type with
  | case1 =>
    rw [List.nil_append, parseClass, if_pos rfl]
    rfl
  | case2 c =>
    obtain ⟨hclose, hback⟩ := hbody c List.mem_cons_self
    rw [List.length_singleton] at hfuel
    obtain ⟨fuel, rfl⟩ : ∃ n, fuel = n + 1 := ⟨fuel - 1, by omega⟩
    rw [List.singleton_append, parseClass_single hclose hback _ _ (by simp), parseClass, if_pos rfl]
    rfl
  | case3 c d =>
    obtain ⟨hclose, hback⟩ := hbody c List.mem_cons_self
    obtain ⟨hclose', hback'⟩ := hbody d (List.mem_cons_of_mem c List.mem_cons_self)
    simp only [List.length_cons, List.length_nil] at hfuel
    obtain ⟨fuel, rfl⟩ : ∃ n, fuel = n + 1 := ⟨fuel - 1, by omega⟩
    obtain ⟨fuel, rfl⟩ : ∃ n, fuel = n + 1 := ⟨fuel - 1, by omega⟩
    have hlast : parseClass (fuel + 1 + 1) .charAlt (d :: ']' :: rest) =
        .ok ([⟨.charAlt, d.toNat⟩], rest) := by
      rw [parseClass_single hclose' hback' _ _ (by simp), parseClass, if_pos rfl]
      rfl
    by_cases hd : d = '-'
    · subst hd
      show parseClass _ _ (c :: '-' :: ']' :: rest) = _
      rw [parseClass_last hclose hback]
      exact map_ok_eq hlast _
    · show parseClass _ _ (c :: d :: ']' :: rest) = _
      rw [parseClass_single hclose hback _ _ (by simpa using hd)]
      exact map_ok_eq hlast _
  | case4 c e body ih =>
    obtain ⟨hclose, hback⟩ := hbody c List.mem_cons_self
    obtain ⟨hclose', hback'⟩ := hbody e (by simp)
    simp only [List.length_cons] at hfuel
    have hrest := ih (fun d hd => hbody d (by simp [hd])) .charAlt (fuel - 1) (by omega)
    rw [Nat.sub_add_cancel (by omega)] at hrest
    show parseClass _ _ (c :: '-' :: e :: (body ++ ']' :: rest)) = _
    rw [parseClass_range hclose hback _ _ hclose' hback', classItems, if_pos rfl]
    exact map_ok_eq hrest _
  | case5 c d e body hd ih =>
    obtain ⟨hclose, hback⟩ := hbody c List.mem_cons_self
    rw [List.length_cons] at hfuel
    have hrest := ih (fun d hd => hbody d (List.mem_cons_of_mem c hd)) .charAlt (fuel - 1) (by omega)
    rw [Nat.sub_add_cancel (by omega)] at hrest
    show parseClass _ _ (c :: (d :: e :: body ++ ']' :: rest)) = _
    rw [parseClass_single hclose hback _ _ (by simpa using hd), classItems, if_neg hd]
    exact map_ok_eq hrest _

/-! ### Their characters -/

def itemRange (item : ℕ × Option ℕ) : CharRange :=
  .span item.1 (item.2.getD item.1)

lemma startsCharAlt_classElems (item : ℕ × Option ℕ) (items : List (ℕ × Option ℕ)) :
    startsCharAlt (classElems .charAlt (item :: items)) = true := by
  obtain ⟨c, _ | e⟩ := item <;> rfl

lemma classRanges_classElems {type : GreType} (htype : type ≠ .charAny)
    (items : List (ℕ × Option ℕ)) :
    classRanges (classElems type items) = items.map itemRange := by
  induction items generalizing type with
  | nil => rfl
  | cons item items ih =>
    have hrest := ih (show GreType.charAlt ≠ .charAny by decide)
    have hstarts : (if startsCharAlt (classElems .charAlt items) then
        classRanges (classElems .charAlt items) else []) = items.map itemRange := by
      cases items with
      | nil => rfl
      | cons i items => rw [startsCharAlt_classElems, if_pos rfl, hrest]
    obtain ⟨c, _ | e⟩ := item
    · have hrange : rangeOf ⟨type, c⟩ = itemRange (c, none) := if_neg htype
      rw [List.map_cons, ← hrange, ← hstarts]
      show classRanges (⟨type, c⟩ :: classElems .charAlt items) = _
      cases hes : classElems .charAlt items with
      | nil => rfl
      | cons u us =>
        have hu : u.type = .charAlt := by
          cases items with
          | nil => cases hes
          | cons i items =>
            have h := startsCharAlt_classElems i items
            rw [hes] at h
            simpa [startsCharAlt] using h
        rw [classRanges, if_neg (by rw [hu]; decide)]
    · rw [List.map_cons, ← hstarts]
      show classRanges (⟨type, c⟩ :: ⟨.charRngUpper, e⟩ :: classElems .charAlt items) = _
      rw [classRanges, if_pos rfl]
      rfl

lemma insideClass_classElems (items : List (ℕ × Option ℕ)) :
    ∀ x ∈ classElems .charAlt items, InsideClass x := by
  induction items with
  | nil => exact fun x hx => absurd hx List.not_mem_nil
  | cons item items ih =>
    intro x hx
    rcases List.mem_append.1 hx with hx | hx
    · obtain ⟨c, _ | e⟩ := item
      · obtain rfl := List.mem_singleton.1 hx
        exact .inl rfl
      · rcases List.mem_cons.1 hx with rfl | hx
        · exact .inl rfl
        · obtain rfl := List.mem_singleton.1 hx
          exact .inr rfl
    · exact ih x hx

lemma classElems_cons (type : GreType) (item : ℕ × Option ℕ)
    (items : List (ℕ × Option ℕ)) :
    ∃ es, classElems type (item :: items) = ⟨type, item.1⟩ :: es ∧
      ∀ x ∈ es, InsideClass x := by
  obtain ⟨c, _ | e⟩ := item
  · exact ⟨_, rfl, insideClass_classElems items⟩
  · refine ⟨⟨.charRngUpper, e⟩ :: classElems .charAlt items, rfl, fun x hx => ?_⟩
    rcases List.mem_cons.1 hx with rfl | hx
    · exact .inr rfl
    · exact insideClass_classElems items x hx

lemma exists_itemRange {items : List (ℕ × Option ℕ)} {c : ℕ} :
    (∃ r ∈ items.map itemRange, r.Has c) ↔ ∃ i ∈ items, ItemHas i c := by
  simp only [List.mem_map, exists_exists_and_eq_and]
  exact Iff.rfl

def ClassHas (body : List Char) (c : ℕ) : Prop := ∃ i ∈ classItems body, ItemHas i c

lemma classItems_ne_nil {body : List Char} (hne : body ≠ []) : classItems body ≠ [] := by
  match body with
  | [] => exact absurd rfl hne
  | [c] => exact List.cons_ne_nil _ _
  | [c, d] => exact List.cons_ne_nil _ _
  | c :: d :: e :: rest =>
    rw [classItems]
    split_ifs <;> exact List.cons_ne_nil _ _

lemma classOf_has {type : GreType} (htype : type = .char ∨ type = .charNot)
    {item : ℕ × Option ℕ} {items : List (ℕ × Option ℕ)} {es : Rule}
    (hes : classElems type (item :: items) = ⟨type, item.1⟩ :: es) (c : ℕ) :
    (classOf (⟨type, item.1⟩ :: es)).Has c ↔
      ((∃ i ∈ item :: items, ItemHas i c) ↔ type = .char) := by
  have hany : type ≠ .charAny := by rcases htype with rfl | rfl <;> decide
  rw [CharClass.Has, classOf, ← hes, classRanges_classElems hany, exists_itemRange, hes]
  rcases htype with rfl | rfl
  · exact iff_congr Iff.rfl (iff_of_true rfl rfl)
  · exact iff_congr Iff.rfl (iff_of_false (fun h => Bool.noConfusion h) (by decide))

lemma scans_items (body : List Char) (item : ℕ × Option ℕ) (items : List (ℕ × Option ℕ))
    (hhead : body.head? ≠ some '^')
    (h : ∀ rest, parseClass ((body ++ ']' :: rest).length + 1) .char (body ++ ']' :: rest) =
      .ok (classElems .char (item :: items), rest)) :
    Scans refs true ('[' :: (body ++ [']'])) fun _ => chars fun c => ∃ i ∈ item :: items, ItemHas i c := by
  obtain ⟨es, hes, hinside⟩ := classElems_cons .char item items
  have hhas : (classOf (⟨.char, item.1⟩ :: es)).Has = fun c => ∃ i ∈ item :: items, ItemHas i c := by
    funext c
    rw [classOf_has (.inl rfl) hes]
    exact propext (iff_true_right rfl)
  rw [← hhas]
  exact scans_class hhead (fun rest => by rw [h, hes]) rfl hinside

lemma scans_inverse_items (body : List Char) (item : ℕ × Option ℕ) (items : List (ℕ × Option ℕ))
    (h : ∀ rest, parseClass ((body ++ ']' :: rest).length + 1) .charNot (body ++ ']' :: rest) =
      .ok (classElems .charNot (item :: items), rest)) :
    Scans refs true ('[' :: '^' :: (body ++ [']']))
      fun _ => chars fun c => ¬∃ i ∈ item :: items, ItemHas i c := by
  obtain ⟨es, hes, hinside⟩ := classElems_cons .charNot item items
  have hhas : (classOf (⟨.charNot, item.1⟩ :: es)).Has =
      fun c => ¬∃ i ∈ item :: items, ItemHas i c := by
    funext c
    rw [classOf_has (.inr rfl) hes]
    exact propext (iff_false_right (by decide))
  rw [← hhas]
  exact scans_inverse (fun rest => by rw [h, hes]) rfl hinside

lemma scans_plainClass {body : List Char} (hne : body ≠ [])
    (hbody : ∀ c ∈ body, c ≠ ']' ∧ c ≠ '\\') (hhead : body.head? ≠ some '^') :
    Scans refs true ('[' :: (body ++ [']'])) fun _ => chars (ClassHas body) := by
  obtain ⟨item, items, hitems⟩ := List.exists_cons_of_ne_nil (classItems_ne_nil hne)
  have hhas : ClassHas body = fun c => ∃ i ∈ item :: items, ItemHas i c := by
    funext c
    rw [ClassHas, hitems]
  rw [hhas]
  refine scans_items body item items hhead fun rest => ?_
  rw [← hitems]
  exact parseClass_plain hbody rest (by rw [List.length_append]; omega) .char

lemma scans_plainInverse {body : List Char} (hne : body ≠ [])
    (hbody : ∀ c ∈ body, c ≠ ']' ∧ c ≠ '\\') :
    Scans refs true ('[' :: '^' :: (body ++ [']'])) fun _ => chars fun c => ¬ClassHas body c := by
  obtain ⟨item, items, hitems⟩ := List.exists_cons_of_ne_nil (classItems_ne_nil hne)
  have hhas : ClassHas body = fun c => ∃ i ∈ item :: items, ItemHas i c := by
    funext c
    rw [ClassHas, hitems]
  rw [hhas]
  refine scans_inverse_items body item items fun rest => ?_
  rw [← hitems]
  exact parseClass_plain hbody rest (by rw [List.length_append]; omega) .charNot

/-! ## Joined alternates -/

/-- Alternates with bars between them. -/
def joinAlts : List (List Char) → List Char
  | [] => []
  | text :: texts => text ++ texts.flatMap (' ' :: '|' :: ' ' :: ·)

lemma scansBars_join {nested : Bool} {alts : List (List Char × (Meaning → Language ℕ))}
    (h : ∀ a ∈ alts, NoSpace a.1 ∧ Scans refs false a.1 a.2) :
    ScansBars refs nested ((alts.map Prod.fst).flatMap (' ' :: '|' :: ' ' :: ·))
      fun env => (alts.map fun a => a.2 env).sum := by
  induction alts with
  | nil => exact scansBars_nil nested
  | cons a alts ih =>
    obtain ⟨hspace, hscans⟩ := h a List.mem_cons_self
    have hsp : ∀ c ∈ [' '], c = ' ' := fun c hc => List.mem_singleton.1 hc
    have hbars := (ih fun b hb => h b (List.mem_cons_of_mem a hb)).cons (hscans.alternate hspace) hsp
      fun hnil => absurd hnil hspace.1
    simpa using hbars.space

lemma scansAlts_join (nested : Bool) {alts : List (List Char × (Meaning → Language ℕ))}
    (hne : alts ≠ []) (h : ∀ a ∈ alts, NoSpace a.1 ∧ Scans refs false a.1 a.2) :
    ScansAlts refs nested (joinAlts (alts.map Prod.fst))
      fun env => (alts.map fun a => a.2 env).sum := by
  obtain ⟨a, alts, rfl⟩ := List.exists_cons_of_ne_nil hne
  obtain ⟨hspace, hscans⟩ := h a List.mem_cons_self
  have hbars : ScansBars refs nested _ _ := scansBars_join fun b hb => h b (List.mem_cons_of_mem a hb)
  have halts := (hscans.alternate hspace).alts hbars fun hnil => absurd hnil hspace.1
  simpa [joinAlts] using halts

end IFairy.LlamaGrammar

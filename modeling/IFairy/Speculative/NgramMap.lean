import IFairy.Framework.FallibleLoops
import IFairy.Framework.Bits

/-!
# The n-gram map: `common_ngram_map`

The map looks up the last `n` tokens of a history in the history itself and drafts the `m` tokens
that followed them.  It stores no tokens: its keys and values are positions in the history, which
the caller passes again with every call and may have replaced by another one in between.

Every read of a vector goes through `readAt` and every unsigned difference through `usub`, so that a
call whose index or difference is out of range is an error, like the aborts of the source.
-/

namespace IFairy.Speculative

/-- `llama_token`. -/
abbrev Token := ℤ

/-- How a call may fail: an index outside its vector, an unsigned difference below zero, an abort
on indices that are not consistent, and the abort on a history that is too long for `key_map`. -/
inductive MapError
  | outOfBounds
  | wrapped
  | inconsistent
  | tooLong
  deriving DecidableEq, Repr

/-- `v[i]`. -/
def readAt {α : Type} (v : List α) (i : ℕ) : Except MapError α :=
  match v[i]? with
  | some a => .ok a
  | none => .error .outOfBounds

/-- `a - b` on unsigned integers. -/
def usub (a b : ℕ) : Except MapError ℕ := if b ≤ a then .ok (a - b) else .error .wrapped

/-! ## The data -/

/-- `COMMON_NGRAM_MAX_VALUES`. -/
abbrev maxValues : ℕ := 4

/-- `COMMON_NGRAM_MAX_VALUE_COUNT`. -/
def maxValueCount : ℕ := 16380

/-- `common_ngram_map_value`. -/
structure MapValue where
  valueIdx : ℕ := 0
  valueNum : ℕ := 0
  nAccepted : ℤ := -1
  deriving DecidableEq, Repr

/-- `common_ngram_map_key`. -/
structure MapKey where
  keyIdx : ℕ
  statIdx : ℕ
  keyNum : ℕ
  values : Fin maxValues → MapValue
  deriving DecidableEq

/-- What the constructor of `common_ngram_map` sets for good; `keyMapSize` is `key_map.size()`, `0`
when the map from hashes is not used. -/
structure MapConfig where
  sizeKey : ℕ
  sizeValue : ℕ
  keyOnly : Bool
  minHits : ℕ
  keyMapSize : ℕ

/-- `COMMON_NGRAM_HASH_MAP_SIZE`. -/
def hashMapSize : ℕ := 262144

/-- `common_ngram_map`. -/
structure NgramMap where
  keys : List MapKey := []
  sizeLastBegin : ℕ := 0
  lastDraftCreated : Bool := false
  lastDraftKeyIdx : ℕ := 0
  lastDraftValueIdx : ℕ := 0
  idxLastCheck : ℕ := 0
  keyMap : ℕ → ℕ := fun _ => 0
  keyMapLastIdx : ℕ := 0

/-- A `uint16_t` that is assigned to an `int16_t`. -/
def toInt16 (k : ℕ) : ℤ := (k : ℤ).bmod (2 ^ 16)

namespace NgramMap

/-! ## The start of a generation -/

/-- `idx_begin_cleanup`. -/
def cleanupBound (cfg : MapConfig) (map : NgramMap) (sizeBegin : ℕ) : Except MapError ℕ :=
  if sizeBegin < map.sizeLastBegin then
    if cfg.sizeKey + cfg.sizeValue < sizeBegin then do
      let rest ← usub sizeBegin cfg.sizeKey
      usub rest cfg.sizeValue
    else .ok 0
  else .ok map.sizeLastBegin

/-- The entries of `key_map` from `bound` on are cleared. -/
def cleanKeyMap (bound : ℕ) (map : NgramMap) : NgramMap :=
  { map with
    keyMap := fun i => if map.keyMap i ≠ 0 ∧ bound ≤ map.keyMap i then 0 else map.keyMap i
    keyMapLastIdx := if 0 < bound then (bound - 1) % 2 ^ 32 else 0 }

/-- The values after slot `j` move to the left, and the last slot is cleared. -/
def removeValue (values : Fin maxValues → MapValue) (j : Fin maxValues) :
    Fin maxValues → MapValue := fun k =>
  if k < j then values k
  else if h : k.val + 1 < maxValues then values ⟨k.val + 1, h⟩
  else { values k with valueIdx := 0, valueNum := 0 }

/-- The value of slot `j` is removed when it is from `bound` on. -/
def cleanSlot (bound : ℕ) (values : Fin maxValues → MapValue) (j : Fin maxValues) :
    Fin maxValues → MapValue :=
  if (values j).valueIdx ≠ 0 ∧ bound ≤ (values j).valueIdx then removeValue values j else values

/-- The values from `bound` on are removed, the last slot first. -/
def cleanValues (bound : ℕ) (values : Fin maxValues → MapValue) : Fin maxValues → MapValue :=
  (List.finRange maxValues).reverse.foldl (cleanSlot bound) values

/-- What the clean-up keeps of a key, nothing when the key is deleted. -/
def cleanKey (cfg : MapConfig) (bound : ℕ) (key : MapKey) : Option MapKey :=
  if bound ≤ key.keyIdx then none
  else if cfg.keyOnly then some key
  else
    let values := cleanValues bound key.values
    if (values 0).valueIdx = 0 then none else some { key with values }

/-- `common_ngram_map_begin`. -/
def begin (cfg : MapConfig) (map : NgramMap) (tokens : List Token) : Except MapError NgramMap := do
  let bound ← map.cleanupBound cfg tokens.length
  let map :=
    if cfg.keyMapSize ≠ 0 ∧ tokens.length < map.idxLastCheck then map.cleanKeyMap bound else map
  let map :=
    if tokens.length < map.idxLastCheck then
      { map with keys := map.keys.filterMap (cleanKey cfg bound) }
    else map
  .ok { map with idxLastCheck := tokens.length, sizeLastBegin := tokens.length }

/-! ## The search -/

/-- A loop over `len` tokens that compares `a` from `i` on with `b` from `j` on and stops at the
first difference. -/
def sameTokens (a b : List Token) : ℕ → ℕ → ℕ → Except MapError Bool
  | _, _, 0 => .ok true
  | i, j, len + 1 => do
    let x ← readAt a i
    let y ← readAt b j
    if x = y then sameTokens a b (i + 1) (j + 1) len else .ok false

/-- `common_ngram_map_hash`, with `LCG_FACTOR`. -/
def ngramHash (tokens : List Token) (start len : ℕ) : Except MapError ℕ :=
  (List.range len).foldlM (fun hash i => do
    let token ← readAt tokens (start + i)
    .ok ((hash * 2654435761 + token) % 2 ^ 32).toNat) 0

/-- `for (size_t j = hi; j > lo; --j)`: the first position that holds the key, `0` for none. -/
def searchDown (cfg : MapConfig) (inp keyTokens : List Token) (lo : ℕ) : ℕ → Except MapError ℕ
  | 0 => .ok 0
  | j + 1 =>
    if lo < j + 1 then do
      let found ← sameTokens inp keyTokens (j + 1) 0 cfg.sizeKey
      if found then .ok (j + 1) else searchDown cfg inp keyTokens lo j
    else .ok 0

/-- `for (size_t j = hi; j > lo; --j)`: positions whose hash has no entry get one. -/
def addHashes (cfg : MapConfig) (inp : List Token) (lo : ℕ) :
    ℕ → (ℕ → ℕ) → Except MapError (ℕ → ℕ)
  | 0, keyMap => .ok keyMap
  | j + 1, keyMap =>
    if lo < j + 1 then do
      let hash ← ngramHash inp (j + 1) cfg.sizeKey
      let idx := hash % cfg.keyMapSize
      addHashes cfg inp lo j (if keyMap idx = 0 then Function.update keyMap idx (j + 1) else keyMap)
    else .ok keyMap

/-- `len - n - m - 1`. -/
def lastStart (cfg : MapConfig) (len : ℕ) : Except MapError ℕ := do
  let a ← usub len cfg.sizeKey
  let b ← usub a cfg.sizeValue
  usub b 1

/-- The search in `key_map`. -/
def lookUp (cfg : MapConfig) (map : NgramMap) (inp keyTokens : List Token) : Except MapError ℕ :=
  if cfg.keyMapSize = 0 then .ok 0
  else do
    let hash ← ngramHash keyTokens 0 cfg.sizeKey
    let idxKey := map.keyMap (hash % cfg.keyMapSize)
    let last ← lastStart cfg inp.length
    if idxKey ≠ 0 ∧ idxKey < last then do
      let found ← sameTokens inp keyTokens idxKey 0 cfg.sizeKey
      .ok (if found then idxKey else 0)
    else .ok 0

/-- The search in the tokens up to `size_last_begin`. -/
def searchBefore (cfg : MapConfig) (map : NgramMap) (inp keyTokens : List Token) (matchPos : ℕ) :
    Except MapError ℕ :=
  if matchPos = 0 ∧ cfg.sizeKey + cfg.sizeValue + 1 < map.sizeLastBegin then do
    let last ← lastStart cfg map.sizeLastBegin
    searchDown cfg inp keyTokens map.keyMapLastIdx last
  else .ok matchPos

/-- The search in the tokens after `size_last_begin`. -/
def searchAfter (cfg : MapConfig) (map : NgramMap) (inp keyTokens : List Token) (matchPos : ℕ) :
    Except MapError ℕ :=
  if matchPos = 0 then do
    let last ← lastStart cfg inp.length
    searchDown cfg inp keyTokens (max map.sizeLastBegin map.keyMapLastIdx) last
  else .ok matchPos

/-- The hashes of the positions before `size_last_begin`. -/
def addHashesBefore (cfg : MapConfig) (map : NgramMap) (inp : List Token) :
    Except MapError (ℕ → ℕ) :=
  if cfg.sizeKey + cfg.sizeValue + 1 < map.sizeLastBegin then do
    let last ← lastStart cfg map.sizeLastBegin
    addHashes cfg inp map.keyMapLastIdx last map.keyMap
  else .ok map.keyMap

/-- The hashes of new n-grams are added to `key_map`. -/
def updateKeyMap (cfg : MapConfig) (map : NgramMap) (inp : List Token) :
    Except MapError NgramMap :=
  if cfg.keyMapSize = 0 then .ok map
  else do
    let keyMap ← map.addHashesBefore cfg inp
    let last ← lastStart cfg inp.length
    let keyMap ← addHashes cfg inp (max map.sizeLastBegin map.keyMapLastIdx) last keyMap
    .ok { map with keyMap, keyMapLastIdx := max (last % 2 ^ 32) map.keyMapLastIdx }

/-! ## The key and its values -/

/-- The offset of the first key that holds the tokens, the number of keys for none. -/
def findKey (cfg : MapConfig) (inp keyTokens : List Token) : List MapKey → Except MapError ℕ
  | [] => .ok 0
  | key :: rest => do
    let found ← sameTokens inp keyTokens key.keyIdx 0 cfg.sizeKey
    if found then .ok 0
    else do
      let offset ← findKey cfg inp keyTokens rest
      .ok (offset + 1)

/-- `new_key`. -/
def newKey (cfg : MapConfig) (matchPos : ℕ) : MapKey where
  keyIdx := matchPos
  statIdx := 0
  keyNum := 0
  values := fun _ => { nAccepted := toInt16 cfg.sizeValue }

/-- The slot for the m-gram at `idx`, and whether the slot is empty; nothing when all slots hold
other m-grams. -/
def findSlot (cfg : MapConfig) (inp : List Token) (values : Fin maxValues → MapValue) (idx : ℕ) :
    List (Fin maxValues) → Except MapError (Option (Fin maxValues × Bool))
  | [] => .ok none
  | v :: rest =>
    if (values v).valueIdx = 0 then .ok (some (v, true))
    else do
      let found ← sameTokens inp inp idx (values v).valueIdx cfg.sizeValue
      if found then .ok (some (v, false)) else findSlot cfg inp values idx rest

def MapValue.count (value : MapValue) : MapValue :=
  { value with valueNum := min (value.valueNum + 1) maxValueCount }

/-- The body of the loop over the positions from `stat_idx` on. -/
def countAt (cfg : MapConfig) (inp keyTokens : List Token) (values : Fin maxValues → MapValue)
    (i : ℕ) : Except MapError (Fin maxValues → MapValue) := do
  let found ← sameTokens inp keyTokens i 0 cfg.sizeKey
  if found then do
    let slot ← findSlot cfg inp values (i + cfg.sizeKey) (List.finRange maxValues)
    match slot with
    | none => .ok values
    | some (v, true) =>
      .ok (Function.update values v (MapValue.count
        { valueIdx := i + cfg.sizeKey, valueNum := 0, nAccepted := toInt16 cfg.sizeValue }))
    | some (v, false) => .ok (Function.update values v (MapValue.count (values v)))
  else .ok values

/-- `max_occur` and `slot_max`. -/
def maxOccur (values : Fin maxValues → MapValue) : ℕ × Fin maxValues :=
  (List.finRange maxValues).foldl (fun best v =>
    if best.1 < (values v).valueNum then ((values v).valueNum, v) else best) (0, 0)

/-- `sum_occur`. -/
def sumOccur (values : Fin maxValues → MapValue) (slotMax : Fin maxValues) : ℕ :=
  (((List.finRange maxValues).filter (· ≠ slotMax)).map fun v => (values v).valueNum).sum

/-- The tokens after the key at `matchPos`, as many as were accepted of the value's last draft. -/
def draftTokens (cfg : MapConfig) (inp : List Token) (matchPos : ℕ) (value : MapValue) :
    Except MapError (List Token) :=
  (List.range (min (cfg.sizeValue : ℤ) value.nAccepted).toNat).mapM fun i =>
    readAt inp (matchPos + cfg.sizeKey + i)

/-! ## Drafting -/

/-- The draft from the key at `offset`, which has just been found at `matchPos`. -/
def draftFrom (cfg : MapConfig) (map : NgramMap) (inp keyTokens : List Token)
    (matchPos offset : ℕ) : Except MapError (NgramMap × List Token) := do
  let key ← readAt map.keys offset
  let key := { key with keyNum := min (key.keyNum + 1) maxValueCount }
  if cfg.keyOnly then do
    let draft ← draftTokens cfg inp matchPos (key.values 0)
    .ok ({ map with
      keys := map.keys.set offset key
      lastDraftCreated := true
      lastDraftKeyIdx := offset
      lastDraftValueIdx := 0 }, draft)
  else if key.keyNum < cfg.minHits then
    .ok ({ map with keys := map.keys.set offset key }, [])
  else do
    let values ← (List.range' key.statIdx (matchPos + 1 - key.statIdx)).foldlM
      (countAt cfg inp keyTokens) key.values
    let map := { map with keys := map.keys.set offset { key with values, statIdx := matchPos } }
    let best := maxOccur values
    let others := sumOccur values best.2
    if 0 < others ∧ best.1 < 2 * others then .ok (map, [])
    else do
      let draft ← draftTokens cfg inp matchPos (values best.2)
      .ok ({ map with
        lastDraftCreated := true
        lastDraftKeyIdx := offset
        lastDraftValueIdx := best.2 }, draft)

/-- `key_tokens`: the last `n - 1` tokens and the sampled one. -/
def readKey (cfg : MapConfig) (inp : List Token) (sampled : Token) :
    Except MapError (List Token) := do
  let start ← usub inp.length cfg.sizeKey
  let tokens ← (List.range' (start + 1) (inp.length - (start + 1))).mapM (readAt inp)
  .ok (tokens ++ [sampled])

/-- `common_ngram_map_draft`, with the tokens it drafts. -/
def draft (cfg : MapConfig) (map : NgramMap) (inp : List Token) (sampled : Token) :
    Except MapError (NgramMap × List Token) :=
  let map := { map with
    lastDraftCreated := false, lastDraftKeyIdx := 0, lastDraftValueIdx := 0 }
  if inp.length < 2 * cfg.sizeKey + cfg.sizeValue then .ok (map, [])
  else if 2 ^ 32 - 1 ≤ inp.length then .error .tooLong
  else if inp.length < map.idxLastCheck then .error .inconsistent
  else
    let map := { map with idxLastCheck := inp.length }
    if inp.length < map.sizeLastBegin then .error .inconsistent
    else do
      let keyTokens ← readKey cfg inp sampled
      let matchPos ← map.lookUp cfg inp keyTokens
      let matchPos ← map.searchBefore cfg inp keyTokens matchPos
      let matchPos ← map.searchAfter cfg inp keyTokens matchPos
      let map ← map.updateKeyMap cfg inp
      if matchPos = 0 then .ok (map, [])
      else do
        let offset ← findKey cfg inp keyTokens map.keys
        let map := if offset = map.keys.length then
            { map with keys := map.keys ++ [newKey cfg matchPos] }
          else map
        map.draftFrom cfg inp keyTokens matchPos offset

/-- `common_ngram_map_accept`. -/
def accept (map : NgramMap) (nAccepted : ℕ) : Except MapError NgramMap :=
  if map.lastDraftCreated then do
    let key ← readAt map.keys map.lastDraftKeyIdx
    if h : map.lastDraftValueIdx < maxValues then
      let v : Fin maxValues := ⟨map.lastDraftValueIdx, h⟩
      .ok { map with keys := map.keys.set map.lastDraftKeyIdx { key with
        values := Function.update key.values v
          { key.values v with nAccepted := toInt16 nAccepted } } }
    else .error .outOfBounds
  else .ok map

end NgramMap

end IFairy.Speculative

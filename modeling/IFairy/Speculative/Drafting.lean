import IFairy.Speculative.NgramMap

/-!
# Speculative drafting: `common_speculative`

A speculative object holds a list of implementations.  For each sequence that drafts they are asked
in order until one has a result.  What the target model accepted of the draft is reported to all of
them, and each implementation decides by its own record of its last draft whether that is news.

The draft model is a parameter: a state, and what `common_speculative_gen_draft` does with it.
-/

namespace IFairy.Speculative

/-- `common_speculative_draft_params`; `hasResult` says whether `result` is set. -/
structure DraftParams where
  drafting : Bool
  nMax : ℤ
  idLast : Token
  prompt : Option (List Token)
  hasResult : Bool

/-- `common_speculative_draft_max`. -/
def DraftParams.draftMax (dp : DraftParams) (fallback : ℤ) : ℤ :=
  if 0 ≤ dp.nMax then dp.nMax else fallback

/-- `common_speculative_limit_result`. -/
def DraftParams.limitResult (dp : DraftParams) (result : List Token) : List Token :=
  if dp.nMax < 0 then result else result.take dp.nMax.toNat

/-! ## `ngram_simple` -/

/-- `common_ngram_simple_config`. -/
structure SimpleConfig where
  sizeNgram : ℕ
  sizeMgram : ℕ

/-- The search of `common_ngram_simple_draft`, from position `j` down. -/
def simpleSearch (tokens pattern : List Token) : ℕ → Except MapError ℕ
  | 0 => .ok 0
  | j + 1 => do
    let found ← NgramMap.sameTokens tokens pattern (j + 1) 0 pattern.length
    if found then .ok (j + 1) else simpleSearch tokens pattern j

/-- `common_ngram_simple_draft`. -/
def ngramSimpleDraft (config : SimpleConfig) (tokens : List Token) (sampled : Token) :
    Except MapError (List Token) :=
  if tokens.length ≤ config.sizeNgram + config.sizeMgram + 1 then .ok []
  else do
    let n := config.sizeNgram
    let start ← usub tokens.length n
    let last ← (List.range' (start + 1) (tokens.length - (start + 1))).mapM (readAt tokens)
    let hi ← usub start 1
    let matchPos ← simpleSearch tokens (last ++ [sampled]) hi
    if matchPos = 0 then .ok []
    else do
      let rest ← usub tokens.length (matchPos + n)
      let copyMax := min config.sizeMgram rest
      if copyMax < n then .ok []
      else (List.range copyMax).mapM fun j => readAt tokens (matchPos + n + j)

/-! ## `ngram_mod` -/

/-- `common_ngram_mod`; `-1` is `EMPTY`. -/
structure NgramMod where
  n : ℕ
  size : ℕ
  used : ℕ := 0
  entries : ℕ → Token := fun _ => -1

namespace NgramMod

/-- `idx(tokens.data() + start)`. -/
def idx (mod : NgramMod) (tokens : List Token) (start : ℕ) : Except MapError ℕ := do
  let res ← (List.range mod.n).foldlM (fun (res : ℕ) i => do
    let token ← readAt tokens (start + i)
    .ok ((res * 6364136223846793005 + token) % 2 ^ 64).toNat) 0
  .ok (res % mod.size)

/-- `add(tokens.data() + start)`. -/
def add (tokens : List Token) (mod : NgramMod) (start : ℕ) : Except MapError NgramMod := do
  let i ← mod.idx tokens start
  let token ← readAt tokens (start + mod.n)
  .ok { mod with
    used := if mod.entries i = -1 then mod.used + 1 else mod.used
    entries := Function.update mod.entries i token }

/-- `reset()`. -/
def reset (mod : NgramMod) : NgramMod := { mod with used := 0, entries := fun _ => -1 }

end NgramMod

/-- `common_params_speculative_ngram_mod`, without the match length. -/
structure ModParams where
  nMax : ℤ
  nMin : ℤ

/-- `common_speculative_impl_ngram_mod::seq_info`. -/
structure SeqInfo where
  iLast : ℕ := 0
  nDraftLast : ℕ := 0
  nLow : ℕ := 0

/-- `common_speculative_impl_ngram_mod::begin`; more than a quarter of the entries are used exactly
when `f > f_thold`, since the size is a power of two. -/
def modBegin (mod : NgramMod) (sinfo : SeqInfo) (prompt : List Token) :
    Except MapError (NgramMod × SeqInfo) :=
  let sinfo := { sinfo with iLast := 0, nDraftLast := 0 }
  if prompt.length < mod.n then .ok (mod, sinfo)
  else do
    let mod ← (List.range (prompt.length - mod.n)).foldlM (NgramMod.add prompt) mod
    if mod.size < 4 * mod.used then .ok (mod.reset, { sinfo with iLast := 0 })
    else .ok (mod, { sinfo with iLast := prompt.length - mod.n })

/-- The loop of `common_speculative_impl_ngram_mod::draft`, with the rounds that remain: `result`
holds the last `n` tokens and the ones drafted so far. -/
def modLoop (params : ModParams) (mod : NgramMod) : ℕ → ℕ → List Token →
    Except MapError (List Token)
  | _, 0, result => .ok result
  | i, rounds + 1, result => do
    let idx ← mod.idx result i
    let token := mod.entries idx
    if token = -1 then .ok (if (i : ℤ) < params.nMin then [] else result)
    else modLoop params mod (i + 1) rounds (result ++ [token])

/-- `common_speculative_impl_ngram_mod::draft` with a prompt and a result. -/
def modDraft (params : ModParams) (mod : NgramMod) (sinfo : SeqInfo) (dp : DraftParams)
    (prompt : List Token) : Except MapError (NgramMod × SeqInfo × List Token) :=
  let sinfo := { sinfo with nDraftLast := 0 }
  if prompt.length < mod.n then .ok (mod, sinfo, [])
  else do
    let iEnd := prompt.length - mod.n
    let mod' ← if sinfo.iLast + 32 < prompt.length then
        (List.range' sinfo.iLast (iEnd - sinfo.iLast)).foldlM (NgramMod.add prompt) mod
      else .ok mod
    let sinfo := if sinfo.iLast + 32 < prompt.length then { sinfo with iLast := iEnd } else sinfo
    let nMax := dp.draftMax params.nMax
    if nMax ≤ 0 then .ok (mod', sinfo, [])
    else if mod.n = 0 then .error .outOfBounds
    else do
      let last ← (List.range (mod.n - 1)).mapM fun i => readAt prompt (iEnd + 1 + i)
      let result ← modLoop params mod' 0 nMax.toNat (last ++ [dp.idLast])
      let result := result.drop mod.n
      .ok (mod', { sinfo with nDraftLast := result.length }, result)

/-- `common_speculative_impl_ngram_mod::accept`; less than a quarter was accepted exactly when
`f_acc < 0.25`. -/
def modAccept (mod : NgramMod) (sinfo : SeqInfo) (nAccepted : ℕ) : NgramMod × SeqInfo :=
  if 0 < sinfo.nDraftLast then
    if 4 * nAccepted < sinfo.nDraftLast then
      if 5 ≤ sinfo.nLow + 1 then (mod.reset, { sinfo with nLow := 0, iLast := 0 })
      else (mod, { sinfo with nLow := sinfo.nLow + 1 })
    else (mod, { sinfo with nLow := 0 })
  else (mod, sinfo)

/-! ## Implementations -/

/-- The implementations with their state, for `nSeq` sequences. -/
inductive Impl (nSeq : ℕ)
  | draftSimple
  | ngramSimple (config : SimpleConfig)
  | ngramMap (cfg : MapConfig) (maps : Fin nSeq → NgramMap)
  | ngramMod (params : ModParams) (mod : NgramMod) (sinfos : Fin nSeq → SeqInfo)

/-- The draft model: whether there is one, the configured `n_max`, and what
`common_speculative_gen_draft` does with its state, the number of tokens, the prompt and the last
token. -/
structure DraftModel (D : Type) where
  present : Bool
  nMax : ℤ
  genDraft : D → ℤ → List Token → Token → List Token × D

namespace Impl

variable {nSeq : ℕ} {D : Type}

/-- `begin`. -/
def begin (impl : Impl nSeq) (seq : Fin nSeq) (prompt : List Token) : Except MapError (Impl nSeq) :=
  match impl with
  | draftSimple => .ok draftSimple
  | ngramSimple config => .ok (ngramSimple config)
  | ngramMap cfg maps => do
    let map ← (maps seq).begin cfg prompt
    .ok (ngramMap cfg (Function.update maps seq map))
  | ngramMod params mod sinfos => do
    let (mod, sinfo) ← modBegin mod (sinfos seq) prompt
    .ok (ngramMod params mod (Function.update sinfos seq sinfo))

/-- `draft`: the implementation, the draft model and the result. -/
def draft (model : DraftModel D) (impl : Impl nSeq) (d : D) (seq : Fin nSeq) (dp : DraftParams) :
    Except MapError (Impl nSeq × D × List Token) :=
  match dp.prompt with
  | none => .ok (impl, d, [])
  | some prompt =>
    if dp.hasResult = false then .ok (impl, d, [])
    else
      match impl with
      | draftSimple =>
        let nDraft := dp.draftMax model.nMax
        if model.present = false ∨ nDraft ≤ 0 then .ok (draftSimple, d, [])
        else
          let out := model.genDraft d nDraft prompt dp.idLast
          .ok (draftSimple, out.2, out.1)
      | ngramSimple config => do
        let result ← ngramSimpleDraft config prompt dp.idLast
        .ok (ngramSimple config, d, dp.limitResult result)
      | ngramMap cfg maps => do
        let out ← (maps seq).draft cfg prompt dp.idLast
        .ok (ngramMap cfg (Function.update maps seq out.1), d, dp.limitResult out.2)
      | ngramMod params mod sinfos => do
        let (mod, sinfo, result) ← modDraft params mod (sinfos seq) dp prompt
        .ok (ngramMod params mod (Function.update sinfos seq sinfo), d, result)

/-- `accept`. -/
def accept (impl : Impl nSeq) (seq : Fin nSeq) (nAccepted : ℕ) : Except MapError (Impl nSeq) :=
  match impl with
  | draftSimple => .ok draftSimple
  | ngramSimple config => .ok (ngramSimple config)
  | ngramMap cfg maps => do
    let map ← (maps seq).accept nAccepted
    .ok (ngramMap cfg (Function.update maps seq map))
  | ngramMod params mod sinfos =>
    let out := modAccept mod (sinfos seq) nAccepted
    .ok (ngramMod params out.1 (Function.update sinfos seq out.2))

end Impl

/-! ## The speculative object -/

/-- The loop of `common_speculative_draft` over the implementations: they, the draft model, the
result, and which implementation has produced it. -/
def draftLoop {nSeq : ℕ} {D : Type} (model : DraftModel D) (seq : Fin nSeq) (dp : DraftParams) :
    List (Impl nSeq) → D → Except MapError (List (Impl nSeq) × D × List Token × Option ℕ)
  | [], d => .ok ([], d, [], none)
  | impl :: rest, d => do
    let (impl, d, result) ← impl.draft model d seq dp
    if result ≠ [] then .ok (impl :: rest, d, result, some 0)
    else do
      let (rest, d, result, producer) ← draftLoop model seq dp rest d
      .ok (impl :: rest, d, result, producer.map (· + 1))

end IFairy.Speculative

import IFairy.Framework.FallibleLoops
import IFairy.Framework.Loops

/-!
# The tokenizer files of a conversion

`_load_tokenizer_files` and `add_qwen2_vocab` (`gguf-py/convert_row4_qwen3.py`): the base vocabulary
and the added tokens of `tokenizer.json` are checked against each other and against the size of
the vocabulary, and the token list is filled up with names `[PAD<id>]` where neither of them has a
token.  A text is a list of code points.
-/

namespace IFairy

namespace TokenizerFiles

/-! ## Python values -/

abbrev Str := List Char

local instance lawfulBEq_str : LawfulBEq Str := List.instLawfulBEq

/-- A value as `json.loads` meets it: the members of an object in the order of the text, before
repeated keys collapse.  Of a float only the truth value is kept. -/
inductive PyValue
  | none
  | bool (b : Bool)
  | int (n : ℤ)
  | float (nonzero : Bool)
  | str (s : Str)
  | list (values : List PyValue)
  | dict (members : List (Str × PyValue))

/-- `d[key] = value` on the items of a dictionary: a present key keeps its place. -/
def setItem (items : List (Str × PyValue)) (item : Str × PyValue) : List (Str × PyValue) :=
  if item.1 ∈ items.map Prod.fst then
    items.map fun old => if old.1 = item.1 then item else old
  else items ++ [item]

/-- The dictionary that the members of an object make: `dict.items()`. -/
def itemsOf (members : List (Str × PyValue)) : List (Str × PyValue) := members.foldl setItem []

/-- `d.get(key)`. -/
def getItem (items : List (Str × PyValue)) (key : Str) : Option PyValue :=
  (items.find? fun item => item.1 = key).map Prod.snd

/-- `bool(value)`. -/
def PyValue.truth : PyValue → Bool
  | .none => false
  | .bool b => b
  | .int n => n != 0
  | .float nonzero => nonzero
  | .str s => !s.isEmpty
  | .list values => !values.isEmpty
  | .dict members => !members.isEmpty

/-- What reading a file gives: no file, a text that is not JSON, or a value. -/
inductive JsonFile
  | missing
  | invalid
  | value (v : PyValue)

/-! ## Loading -/

/-- The exceptions of `_load_tokenizer_files` and of `_positive_int`, with what they name. -/
inductive TokenizerError
  | configField (key : Str)
  | fileNotFound
  | invalidJson
  | rootNotObject
  | missingModel
  | missingVocab
  | baseTokenEmpty
  | baseIdNotInteger (token : Str)
  | baseIdRange (token : Str) (id : ℤ)
  | baseIdTwice (id : ℤ) (previous token : Str)
  | addedNotList
  | addedNotObject (index : ℕ)
  | addedIdNotInteger (index : ℕ)
  | addedIdRange (index : ℕ) (id : ℤ)
  | addedContent (index : ℕ)
  | addedIdCollides (id : ℤ) (base content : Str)
  | addedIdTwice (id : ℤ) (previous content : Str)
  | addedContentTwice (content : Str)
  | addedContentInBase (content : Str)

/-- An entry of a dictionary from ids to texts. -/
abbrev Ids := ℤ → Option Str

/-- The loop over the base vocabulary. -/
def checkBase (vocabSize : ℤ) : List (Str × PyValue) → Ids → Except TokenizerError Ids
  | [], baseIds => .ok baseIds
  | (token, value) :: items, baseIds =>
    if token = [] then .error .baseTokenEmpty
    else
      match value with
      | .int id =>
        if ¬ (0 ≤ id ∧ id < vocabSize) then .error (.baseIdRange token id)
        else
          match baseIds id with
          | none => checkBase vocabSize items (Function.update baseIds id (some token))
          | some previous =>
            if previous ≠ token then .error (.baseIdTwice id previous token)
            else checkBase vocabSize items baseIds
      | _ => .error (.baseIdNotInteger token)

/-- The values of `entry.get("id")` and `entry.get("content")` as an integer and a string. -/
def intField (items : List (Str × PyValue)) (key : Str) : Option ℤ :=
  match getItem items key with
  | some (.int id) => some id
  | _ => none

def strField (items : List (Str × PyValue)) (key : Str) : Option Str :=
  match getItem items key with
  | some (.str content) => some content
  | _ => none

/-- The loop over the added tokens, from index `index` on. -/
def checkAdded (vocabSize : ℤ) (baseIds : Ids) (vocab : List (Str × PyValue)) :
    ℕ → List PyValue → Ids → List Str → Except TokenizerError Unit
  | _, [], _, _ => .ok ()
  | index, entry :: entries, addedIds, addedContents =>
    match entry with
    | .dict members =>
      match intField (itemsOf members) "id".toList with
      | none => .error (.addedIdNotInteger index)
      | some id =>
        if ¬ (0 ≤ id ∧ id < vocabSize) then .error (.addedIdRange index id)
        else
          match strField (itemsOf members) "content".toList with
          | none => .error (.addedContent index)
          | some content =>
            if content = [] then .error (.addedContent index)
            else
              match baseIds id with
              | some base => .error (.addedIdCollides id base content)
              | none =>
                let previous := (addedIds id).getD content
                let addedIds := Function.update addedIds id (some previous)
                if previous ≠ content then .error (.addedIdTwice id previous content)
                else if content ∈ addedContents then .error (.addedContentTwice content)
                else if content ∈ vocab.map Prod.fst then .error (.addedContentInBase content)
                else
                  checkAdded vocabSize baseIds vocab (index + 1) entries addedIds
                    (addedContents ++ [content])
    | _ => .error (.addedNotObject index)

/-- `tokenizer.get("added_tokens", [])`, which must be a list. -/
def addedTokens (tokenizer : List (Str × PyValue)) : Except TokenizerError (List PyValue) :=
  match getItem tokenizer "added_tokens".toList with
  | none => .ok []
  | some (.list entries) => .ok entries
  | some _ => .error .addedNotList

/-- `model.vocab`. -/
def modelVocab (tokenizer : List (Str × PyValue)) :
    Except TokenizerError (List (Str × PyValue)) :=
  match getItem tokenizer "model".toList with
  | some (.dict model) =>
    match getItem (itemsOf model) "vocab".toList with
    | some (.dict vocab) => if vocab = [] then .error .missingVocab else .ok (itemsOf vocab)
    | _ => .error .missingVocab
  | _ => .error .missingModel

/-- The two files of a model directory. -/
structure ModelDir where
  tokenizer : JsonFile
  tokenizerConfig : JsonFile

def loadRoots (dir : ModelDir) :
    Except TokenizerError (List (Str × PyValue) × List (Str × PyValue)) :=
  match dir.tokenizer, dir.tokenizerConfig with
  | .missing, _ | _, .missing => .error .fileNotFound
  | .invalid, _ | _, .invalid => .error .invalidJson
  | .value (.dict tokenizer), .value (.dict config) => .ok (itemsOf tokenizer, itemsOf config)
  | _, _ => .error .rootNotObject

/-- `_load_tokenizer_files`. -/
def loadTokenizerFiles (dir : ModelDir) (vocabSize : ℤ) :
    Except TokenizerError (List (Str × PyValue) × List (Str × PyValue)) := do
  let (tokenizer, config) ← loadRoots dir
  let vocab ← modelVocab tokenizer
  let baseIds ← checkBase vocabSize vocab fun _ => none
  let added ← addedTokens tokenizer
  checkAdded vocabSize baseIds vocab 0 added (fun _ => none) []
  pure (tokenizer, config)

/-! ## The token list -/

/-- `gguf.TokenType`, as far as it is used. -/
inductive TokenType
  | normal
  | control
  | userDefined
  | unused
  deriving DecidableEq

/-- `_looks_special`. -/
def looksSpecial (token : Str) : Bool :=
  ["<pad>".toList, "<mask>".toList, "<2mass>".toList, "[@BOS@]".toList].contains token ||
    ("<|".toList.isPrefixOf token && "|>".toList.isSuffixOf token) ||
    ("<｜".toList.isPrefixOf token && "｜>".toList.isSuffixOf token) ||
    ("<unused".toList.isPrefixOf token && ">".toList.isSuffixOf token)

/-- The generated name of an id without a token: `[PAD<id>]`. -/
def padName (id : ℕ) : Str := "[PAD".toList ++ (Nat.toDigits 10 id ++ "]".toList)

/-- The ids of the base vocabulary in the comprehension `reverse_vocab`. -/
def baseItem (item : Str × PyValue) : Option (ℤ × Str) :=
  match item.2 with
  | .int id => some (id, item.1)
  | _ => none

/-- Id, content and truth of `special` of an entry of `added_tokens`. -/
def addedItem (entry : PyValue) : Option (ℤ × Str × Bool) :=
  match entry with
  | .dict members =>
    match intField (itemsOf members) "id".toList, strField (itemsOf members) "content".toList with
    | some id, some content =>
      some (id, content, ((getItem (itemsOf members) "special".toList).map PyValue.truth).getD false)
    | _, _ => none
  | _ => none

/-- `reverse_vocab` and `added_by_id` (of whose entries only `special` is read again). -/
structure TokenMaps where
  reverseVocab : Ids
  addedById : ℤ → Option Bool

/-- The dictionaries that `add_qwen2_vocab` builds. -/
def tokenMaps (vocab : List (Str × PyValue)) (added : List PyValue) : TokenMaps :=
  let base : Ids := (vocab.filterMap baseItem).foldl
    (fun ids item => Function.update ids item.1 (some item.2)) fun _ => none
  (added.filterMap addedItem).foldl
    (fun maps item =>
      ⟨Function.update maps.reverseVocab item.1 (some item.2.1),
        Function.update maps.addedById item.1 (some item.2.2)⟩)
    ⟨base, fun _ => none⟩

/-- One round of the loop over the ids. -/
def tokenOf (maps : TokenMaps) (id : ℕ) : Str × TokenType :=
  match maps.reverseVocab id with
  | none => (padName id, .unused)
  | some token =>
    match maps.addedById id with
    | some special => (token, if special || looksSpecial token then .control else .userDefined)
    | none => (token, .normal)

/-- `_positive_int`. -/
def positiveInt (config : List (Str × PyValue)) (key : Str) : Except TokenizerError ℕ :=
  match intField config key with
  | none => .error (.configField key)
  | some n => if n ≤ 0 then .error (.configField key) else .ok n.toNat

/-- `add_qwen2_vocab`, up to the token list and the token types that it hands to the writer. -/
def addQwen2Vocab (dir : ModelDir) (config : List (Str × PyValue)) :
    Except TokenizerError (List Str × List TokenType) := do
  let vocabSize ← positiveInt config "vocab_size".toList
  let (tokenizer, _) ← loadTokenizerFiles dir vocabSize
  let vocab ← modelVocab tokenizer
  let added ← addedTokens tokenizer
  let entries := (List.range vocabSize).map (tokenOf (tokenMaps vocab added))
  pure (entries.map Prod.fst, entries.map Prod.snd)

end TokenizerFiles

end IFairy

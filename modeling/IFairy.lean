import IFairy.Alloc.CtxTensorsSpec
import IFairy.Alloc.DynTallocrRuns
import IFairy.Chat.RegexPartialSpec
import IFairy.Context.OutputState
import IFairy.Cpu.MulMatId
import IFairy.Generation.ContextShift
import IFairy.Generation.SelfExtend
import IFairy.Grammar.Termination
import IFairy.Grammar.Utf8Pieces
import IFairy.Json.FormatLiteral
import IFairy.Json.IntegerRangeSpec
import IFairy.Json.NotStringsRight
import IFairy.Json.PatternRule
import IFairy.KvCache.BatchChecks
import IFairy.KvCache.IswaInv
import IFairy.KvCache.PendingRows
import IFairy.KvCache.PendingShifts
import IFairy.KvCache.PrefixSliding
import IFairy.KvCache.SlotSearch
import IFairy.KvCache.SplitOrder
import IFairy.Lut.DispatchSafe
import IFairy.Lut.Headroom
import IFairy.Lut.Unpack
import IFairy.Quant.ActivationsBack
import IFairy.Quant.IfairyRoundTrip
import IFairy.Quant.PhaseCodes
import IFairy.Quant.Ternary
import IFairy.Quant.VecDotAvx2
import IFairy.Row4.Codebook
import IFairy.Row4.Headroom
import IFairy.Row4.ReadBack
import IFairy.Row4.TokenizerSpec
import IFairy.Row4.WriteOutputSpec
import IFairy.Sampling.DrySpec
import IFairy.Sampling.Penalties
import IFairy.Sampling.SampleAccept
import IFairy.Sampling.TopPSpec
import IFairy.Speculative.Acceptance
import IFairy.Speculative.KeyStatistics
import IFairy.Speculative.NgramCacheFiles
import IFairy.Speculative.SharedNgrams
import IFairy.Turbo.KMeanCenter
import IFairy.Turbo.Turbo2m4Spec
import IFairy.Turbo.Wht
import IFairy.Unicode.SplittersSpec
import IFairy.Vocab.MergeTokenizers
import IFairy.Vocab.Plamo2Spec
import IFairy.Vocab.Rwkv
import IFairy.Vocab.SpecialTokens
import IFairy.Vocab.UgmSpec

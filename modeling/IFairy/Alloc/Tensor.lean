/-!
# Types and operations of tensors

The element types of tensors and the operations of graph nodes (`ggml.h`).
-/

namespace IFairy.Alloc

/-- `enum ggml_type`. -/
inductive GgmlType
  | f32 | f16 | q4_0 | q4_1 | q5_0 | q5_1 | q8_0 | q8_1 | q2K | q3K | q4K | q5K | q6K | q8K
  | iq2Xxs | iq2Xs | iq3Xxs | iq1S | iq4Nl | iq3S | iq2S | iq4Xs | i8 | i16 | i32 | i64 | f64
  | iq1M | bf16 | tq1_0 | tq2_0 | mxfp4 | ifairy | ifairyQ16 | ifairy64 | ifairy64Q16
  | row4Codes | row4CodesPair2 | turbo2_0 | turbo3_0 | turbo4_0 | turbo2m4S4 | turbo2m4S8
  | turbo2m4S16 | turbo2m4G4 | turbo2m4G8 | turbo2m4G16
deriving DecidableEq

/-- `enum ggml_op`. -/
inductive GgmlOp
  | none | dup | add | addId | add1 | acc | sub | mul | div | sqr | sqrt | log | sin | cos
  | sum | sumRows | mean | argmax | countEqual | «repeat» | repeatBack | concat | siluBack
  | norm | rmsNorm | rmsNormBack | groupNorm | l2Norm | mulMat | mulMatId | outProd | scale
  | set | cpy | cont | reshape | view | permute | transpose | getRows | getRowsBack | setRows
  | diag | diagMaskInf | diagMaskZero | softMax | softMaxBack | rope | ropeBack | clamp
  | convTranspose1d | im2col | im2colBack | im2col3d | conv2d | conv3d | conv2dDw
  | convTranspose2d | pool1d | pool2d | pool2dBack | upscale | pad | padReflect1d | roll
  | arange | timestepEmbedding | argsort | leakyRelu | flashAttnExt | flashAttnBack | ssmConv
  | ssmScan | winPart | winUnpart | getRelPos | addRelPos | rwkvWkv6 | gatedLinearAttn
  | rwkvWkv7 | unary | mapCustom1 | mapCustom2 | mapCustom3 | custom | crossEntropyLoss
  | crossEntropyLossBack | optStepAdamw | optStepSgd | glu | ifairyRope | ifairySplit
  | ifairyMerge | ifairyAdd | ifairyRmsnorm | ifairyMul | ifairyWideLinearW2 | complexRope
  | complexSplit | complexMerge | complexAdd | complexRmsnorm | complexMul | row4Linear
  | w8a8Linear | turboWht | turboKMeanCenter
deriving DecidableEq

end IFairy.Alloc

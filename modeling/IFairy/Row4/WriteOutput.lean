import IFairy.Framework.Exceptions
import Mathlib.Algebra.Group.Nat.Defs
import Mathlib.Data.List.Basic
import Mathlib.Data.Int.Notation

/-!
# Writing the converted model

`write_conversion_output` (`gguf-py/convert_row4_qwen3.py`) writes the GGUF file into a private
directory beside the output, hard-links the closed file to the output path and removes the private
directory.  The model runs in `EStateM`: the state is what the call works on, the output path and
the private directory included, and every call that the code makes can raise.  Which of them do is
the environment's choice (`Environment.faults`), with the number of bytes that reach the file
before a write raises.

The methods of `GGUFWriter` (`gguf-py/gguf/gguf_writer.py`) are the ones on the path of the
converter: one shard, no temporary spool file, little endian.
-/

namespace IFairy

/-! ## Exceptions and the calls that raise them -/

/-- The exceptions that an `except` clause of the code tells apart. -/
inductive PyError
  | fileExistsError
  | fileNotFoundError
  | osError
  | valueError
  | assertionError
  | other
  deriving DecidableEq

/-- `except OSError` catches it. -/
def PyError.isOSError : PyError → Bool
  | .fileExistsError | .fileNotFoundError | .osError => true
  | .valueError | .assertionError | .other => false

/-- The calls that may raise on their own account.  `i` is the index of a tensor of the plan and
`j` that of a chunk of it. -/
inductive Call
  | resolveOutputPath
  | outputExists
  | newWriter
  | addModelMetadata
  | addQwen2Vocab
  | addTensorInfo (i : ℕ)
  | resolveTemporaryPath
  | mkdtemp
  | openDirectory
  | rmdirNew
  | fstat
  | openFile
  | writeHeader (field : ℕ)
  | flushHeader
  | writeKvData
  | flushKvData
  | writeTiData
  | flushTiData
  | printProgress (i : ℕ)
  | padBefore (i : ℕ)
  | nextChunk (i j : ℕ)
  | endOfChunks (i : ℕ)
  | tofile (i j : ℕ)
  | padAfter (i : ℕ)
  | seek (i : ℕ)
  | truncate (i : ℕ)
  | close
  | link
  | unlink
  | closeDirectory
  | lstat
  | rmdir
  deriving DecidableEq

/-- What the operating system and the callbacks answer: the exception that a call raises, with the
number of bytes that still reach the file, the identity of the new private directory (device and
inode) and the descriptor it is opened under. -/
structure Environment where
  faults : Call → Option (PyError × ℕ)
  directoryId : ℕ × ℕ
  descriptor : ℕ

section

variable {σ : Type} (env : Environment)

/-- A call without an effect on the state. -/
def raising (c : Call) : EStateM PyError σ PUnit :=
  match env.faults c with
  | none => pure ⟨⟩
  | some (e, _) => throw e

end

/-! ## The writer -/

/-- `WriterState`. -/
inductive WriterState
  | noFile
  | empty
  | header
  | kvData
  | tiData
  | weights
  deriving DecidableEq

/-- `TensorInfo`. -/
structure TensorInfo where
  shape : List ℕ
  dtype : ℕ
  nbytes : ℕ

/-- `TensorWriteEntry`, with the chunks that its generator yields.  The name is given by its UTF-8
bytes. -/
structure TensorWriteEntry where
  name : List UInt8
  shape : List ℕ
  rawDtype : ℕ
  nbytes : ℕ
  chunks : List (List UInt8)

/-- The bytes that the chunks of an entry make up. -/
def TensorWriteEntry.data (entry : TensorWriteEntry) : List UInt8 := entry.chunks.flatten

def TensorWriteEntry.info (entry : TensorWriteEntry) : TensorInfo :=
  ⟨entry.shape, entry.rawDtype, entry.nbytes⟩

/-- `GGUFWriter`.  The key-value pairs are packed; `fout` holds what the open file object has
buffered. -/
structure GGUFWriter where
  state : WriterState
  dataAlignment : ℕ
  kvData : List (List UInt8)
  tensors : List (List UInt8 × TensorInfo)
  fout : Option (List UInt8)

/-- A writer and the file at its path. -/
structure OutputFile where
  writer : GGUFWriter
  file : Option (List UInt8)

abbrev WriterM := EStateM PyError OutputFile

namespace GGUFWriter

/-- `GGUF_MAGIC`. -/
def magic : ℕ := 0x46554747

/-- `GGUF_VERSION`. -/
def version : ℕ := 3

/-- `GGUF_DEFAULT_ALIGNMENT`. -/
def defaultAlignment : ℕ := 32

/-- `_pack`: an unsigned integer of `width` bytes. -/
def pack (width n : ℕ) : List UInt8 := (List.range width).map fun i => UInt8.ofNat (n / 256 ^ i)

/-- `ggml_pad`. -/
def ggmlPad (x n : ℕ) : ℕ := (x + n - 1) / n * n

/-- The bytes that `write_padding` writes. -/
def padding (align n : ℕ) : List UInt8 := List.replicate (ggmlPad n align - n) 0

/-- The header of a file with `tensors` tensors and `pairs` key-value pairs, field by field. -/
def headerFields (tensors pairs : ℕ) : List (List UInt8) :=
  [pack 4 magic, pack 4 version, pack 8 tensors, pack 8 pairs]

/-- What `write_ti_data_to_file` packs for one tensor at an offset. -/
def tiEntry (name : List UInt8) (ti : TensorInfo) (offsetTensor : ℕ) : List UInt8 :=
  pack 8 name.length ++ name ++ pack 4 ti.shape.length ++ ti.shape.reverse.flatMap (pack 8) ++
    pack 4 ti.dtype ++ pack 8 offsetTensor

/-- The tensor information of a file, the offsets counted from `offsetTensor`. -/
def tiData (align : ℕ) : List (List UInt8 × TensorInfo) → ℕ → List UInt8
  | [], _ => []
  | (name, ti) :: rest, offsetTensor =>
    tiEntry name ti offsetTensor ++ tiData align rest (offsetTensor + ggmlPad ti.nbytes align)

end GGUFWriter

namespace OutputFile

open GGUFWriter

variable (env : Environment)

/-- The bytes of the file, those that the file object still buffers included. -/
def content (s : OutputFile) : List UInt8 := s.file.getD [] ++ s.writer.fout.getD []

/-- `BufferedWriter.write`: the bytes join the buffer. -/
def buffer (bytes : List UInt8) (s : OutputFile) : OutputFile :=
  { s with writer := { s.writer with fout := s.writer.fout.map (· ++ bytes) } }

def flushed (s : OutputFile) : OutputFile :=
  { s with file := some s.content, writer := { s.writer with fout := s.writer.fout.map fun _ => [] } }

/-- Only the first `n` buffered bytes reach the file. -/
def torn (n : ℕ) (s : OutputFile) : OutputFile :=
  { s with
    file := s.file.map (· ++ (s.writer.fout.getD []).take n)
    writer := { s.writer with fout := s.writer.fout.map fun _ => [] } }

/-- The file ends at `n`. -/
def cut (n : ℕ) (s : OutputFile) : OutputFile := { s with file := s.file.map (·.take n) }

/-- `BufferedWriter.close` after the flush. -/
def closed (s : OutputFile) : OutputFile :=
  { s.flushed with writer := { s.writer with fout := none } }

/-- A call on the open file: `bytes` join the buffer, then `done` follows or the call raises. -/
def fileCall (c : Call) (bytes : List UInt8) (done : OutputFile → OutputFile) : WriterM PUnit :=
  fun s =>
    match s.writer.fout with
    | none => .error .assertionError s
    | some _ =>
      match env.faults c with
      | none => .ok ⟨⟩ (done (s.buffer bytes))
      | some (e, n) => .error e ((s.buffer bytes).torn n)

/-- `fout.write(bytes)`. -/
def write (c : Call) (bytes : List UInt8) : WriterM PUnit := fileCall env c bytes id

/-- `fout.flush()`. -/
def flush (c : Call) : WriterM PUnit := fileCall env c [] flushed

/-- `chunk.tofile(fout)`, which flushes the file object first. -/
def tofile (c : Call) (chunk : List UInt8) : WriterM PUnit := fileCall env c chunk flushed

/-- `if self.state is not ...: raise ValueError`. -/
def expectState (expected : List WriterState) : WriterM PUnit := fun s =>
  if s.writer.state ∈ expected then .ok ⟨⟩ s else .error .valueError s

def setState (state : WriterState) : WriterM PUnit :=
  modify fun s => { s with writer := { s.writer with state := state } }

/-- `write_padding`. -/
def writePadding (c : Call) (n : ℕ) : WriterM PUnit := do
  let s ← get
  let pad := padding s.writer.dataAlignment n
  if pad = [] then pure ⟨⟩ else write env c pad

/-- A group of `add_` calls, which add the packed key-value pairs. -/
def addKeyValues (c : Call) (pairs : List (List UInt8)) : WriterM PUnit := do
  raising env c
  modify fun s => { s with writer := { s.writer with kvData := s.writer.kvData ++ pairs } }

/-- `add_custom_alignment`, without its key-value pair. -/
def setAlignment (alignment : ℕ) : WriterM PUnit :=
  modify fun s => { s with writer := { s.writer with dataAlignment := alignment } }

/-- `add_tensor_info`. -/
def addTensorInfo (i : ℕ) (entry : TensorWriteEntry) : WriterM PUnit := do
  raising env (.addTensorInfo i)
  expectState [.noFile]
  let s ← get
  if entry.name ∈ s.writer.tensors.map Prod.fst then throw .valueError
  else
    set { s with writer := { s.writer with tensors := s.writer.tensors ++ [(entry.name, entry.info)] } }

/-- `open_output_file` at a new path: the file is created, also by a call that raises after it. -/
def openOutputFile : WriterM PUnit := do
  expectState [.noFile]
  fun s =>
    match env.faults .openFile with
    | none => .ok ⟨⟩ ⟨{ s.writer with fout := some [], state := .empty }, some []⟩
    | some (e, n) => .error e { s with file := if n = 0 then s.file else some [] }

/-- The fields of the header, one `write` each. -/
def writeFields : List (List UInt8 × ℕ) → WriterM PUnit
  | [] => pure ⟨⟩
  | (field, k) :: rest => do
    write env (.writeHeader k) field
    writeFields rest

/-- `write_header_to_file`. -/
def writeHeaderToFile : WriterM PUnit := do
  openOutputFile env
  expectState [.empty]
  let s ← get
  writeFields env (headerFields s.writer.tensors.length s.writer.kvData.length).zipIdx
  flush env .flushHeader
  setState .header

/-- `write_kv_data_to_file`. -/
def writeKvDataToFile : WriterM PUnit := do
  expectState [.header]
  let s ← get
  write env .writeKvData s.writer.kvData.flatten
  flush env .flushKvData
  setState .kvData

/-- `write_ti_data_to_file`. -/
def writeTiDataToFile : WriterM PUnit := do
  expectState [.kvData]
  let s ← get
  write env .writeTiData (tiData s.writer.dataAlignment s.writer.tensors 0)
  flush env .flushTiData
  setState .tiData

/-- The loop of `write_tensor_data_stream` over the chunks: the bytes written in the end. -/
def streamChunks (i nbytes : ℕ) : List (List UInt8 × ℕ) → ℕ → WriterM ℕ
  | [], nbytesWritten => do
    raising env (.endOfChunks i)
    pure nbytesWritten
  | (chunk, j) :: rest, nbytesWritten => do
    raising env (.nextChunk i j)
    if nbytes < nbytesWritten + chunk.length then throw .valueError
    else
      tofile env (.tofile i j) chunk
      streamChunks i nbytes rest (nbytesWritten + chunk.length)

/-- The body of the `try` of `write_tensor_data_stream`. -/
def streamTensor (i writeStart nbytes : ℕ) (chunks : List (List UInt8)) : WriterM PUnit := do
  writePadding env (.padBefore i) writeStart
  let nbytesWritten ← streamChunks env i nbytes chunks.zipIdx 0
  if nbytesWritten ≠ nbytes then throw .valueError
  else writePadding env (.padAfter i) nbytesWritten

/-- `write_tensor_data_stream`. -/
def writeTensorDataStream (i : ℕ) (chunks : List (List UInt8)) : WriterM PUnit := do
  expectState [.tiData, .weights]
  let s ← get
  match s.writer.tensors with
  | [] => throw .valueError
  | (_, ti) :: rest =>
    let writeStart := s.content.length
    tryElse (streamTensor env i writeStart ti.nbytes chunks)
      (fun e => do
        fileCall env (.seek i) [] flushed
        fileCall env (.truncate i) [] (cut writeStart)
        throw e)
      fun _ => do
        modify fun s => { s with writer := { s.writer with tensors := rest } }
        setState .weights

/-- `GGUFWriter.close`. -/
def close : WriterM PUnit := do
  let s ← get
  match s.writer.fout with
  | none => pure ⟨⟩
  | some _ => fileCall env .close [] closed

end OutputFile

/-! ## The conversion -/

/-- What a path names. -/
inductive OutputNode
  | regular (content : List UInt8)
  | directory
  | symlink (dangling : Bool)
  deriving DecidableEq

/-- `Path.exists`, which follows symbolic links. -/
def OutputNode.exists : OutputNode → Bool
  | .regular _ | .directory => true
  | .symlink dangling => !dangling

/-- `Path.is_symlink`. -/
def OutputNode.isSymlink : OutputNode → Bool
  | .regular _ | .directory => false
  | .symlink _ => true

/-- `PrivateTemporaryOutput`, whose paths are the private directory and the file in it. -/
structure PrivateTemporaryOutput where
  directoryFd : ℤ
  directoryId : ℕ × ℕ

/-- What the call works on: the output path, the private directory (its identity) and the file in
it, and the local variables that the `except` and `finally` clauses read. -/
structure Conversion where
  output : Option OutputNode
  directory : Option (ℕ × ℕ)
  file : Option (List UInt8)
  writer : Option GGUFWriter
  temporary : Option PrivateTemporaryOutput

/-- The arguments, with the key-value pairs that the metadata functions add. -/
structure ConversionInput where
  row4Layout : String
  architecture : List UInt8
  metadata : List (List UInt8)
  vocabulary : List (List UInt8)
  plan : List TensorWriteEntry

/-- `alignment_for_layout`, which raises at an unsupported layout. -/
def alignmentForLayout (row4Layout : String) : Option ℕ :=
  if row4Layout = "v1" then some 64 else if row4Layout = "v2" then some 128 else none

abbrev ConversionM := EStateM PyError Conversion

namespace Conversion

variable (env : Environment)

def start (output : Option OutputNode) : Conversion := ⟨output, none, none, none, none⟩

/-- The writer with the file at its path, the file of the private directory. -/
def outputFile (s : Conversion) : Option OutputFile :=
  match s.writer with
  | none => none
  | some writer => some ⟨writer, s.file⟩

def setOutputFile (f : OutputFile) (s : Conversion) : Conversion :=
  { s with writer := some f.writer, file := f.file }

def onWriter {α : Type} (method : WriterM α) : ConversionM α :=
  onPart outputFile setOutputFile .assertionError method

/-- The suffix `.row4.codes`. -/
def row4CodesSuffix : List UInt8 := [46, 114, 111, 119, 52, 46, 99, 111, 100, 101, 115]

/-- The quantization type that a layout requires: `ROW4_CODES` or `ROW4_CODES_PAIR2`. -/
def expectedType (row4Layout : String) : Option ℕ :=
  if row4Layout = "v1" then some 47 else if row4Layout = "v2" then some 48 else none

/-- `_validate_tensor_plan_row4_layout`. -/
def validateTensorPlanRow4Layout (plan : List TensorWriteEntry) (row4Layout : String) :
    ConversionM PUnit :=
  match expectedType row4Layout with
  | none => throw .valueError
  | some expected =>
    if plan.any fun entry => row4CodesSuffix.isSuffixOf entry.name && entry.rawDtype != expected then
      throw .valueError
    else pure ⟨⟩

/-- `output_file.exists() or output_file.is_symlink()`. -/
def refuseExisting : ConversionM PUnit := do
  raising env .outputExists
  let s ← get
  if s.output.any fun node => node.exists || node.isSymlink then throw .fileExistsError
  else pure ⟨⟩

/-- `directory.rmdir()`: a directory that holds a file is not empty. -/
def removeDirectory (c : Call) : ConversionM PUnit := do
  raising env c
  let s ← get
  match s.file with
  | some _ => throw .osError
  | none => set { s with directory := none }

/-- `_create_private_temporary`. -/
def createPrivateTemporary : ConversionM PrivateTemporaryOutput := do
  raising env .resolveTemporaryPath
  raising env .mkdtemp
  modify fun s => { s with directory := some env.directoryId, file := none }
  tryElse (raising env .openDirectory)
    (fun e => do
      removeDirectory env .rmdirNew
      throw e)
    fun _ => do
      raising env .fstat
      pure ⟨env.descriptor, env.directoryId⟩

/-- `os.unlink` of the file in the private directory. -/
def unlink : ConversionM PUnit := do
  raising env .unlink
  let s ← get
  match s.file with
  | none => throw .fileNotFoundError
  | some _ => set { s with file := none }

/-- `except FileNotFoundError: pass; except OSError: pass`. -/
def ignoreOSError (e : PyError) : ConversionM PUnit := if e.isOSError then pure ⟨⟩ else throw e

/-- `os.close(directory_fd)`, and the descriptor is marked as closed. -/
def closeDirectory : ConversionM PUnit := do
  raising env .closeDirectory
  modify fun s => { s with temporary := s.temporary.map fun t => { t with directoryFd := -1 } }

/-- `directory.lstat()`. -/
def lstat : ConversionM (ℕ × ℕ) := do
  raising env .lstat
  let s ← get
  match s.directory with
  | none => throw .fileNotFoundError
  | some directoryId => pure directoryId

/-- The first part of `_cleanup_private_temporary`: the file is unlinked, the descriptor closed. -/
def unlinkAndClose (t : PrivateTemporaryOutput) : ConversionM PUnit :=
  if 0 ≤ t.directoryFd then
    andFinally (tryElse (unlink env) ignoreOSError pure) (closeDirectory env)
  else pure ⟨⟩

/-- The second part: the directory is removed unless its path names something else now. -/
def removePrivateDirectory (t : PrivateTemporaryOutput) : ConversionM PUnit :=
  tryElse (lstat env) (fun e => if e = .fileNotFoundError then pure ⟨⟩ else throw e) fun current =>
    if current ≠ t.directoryId then pure ⟨⟩
    else tryElse (removeDirectory env .rmdir) ignoreOSError pure

/-- `_cleanup_private_temporary`. -/
def cleanupPrivateTemporary (t : PrivateTemporaryOutput) : ConversionM PUnit := do
  unlinkAndClose env t
  removePrivateDirectory env t

/-- `_atomic_publish_no_clobber`: `os.link`, which replaces nothing. -/
def atomicPublishNoClobber : ConversionM PUnit := do
  raising env .link
  let s ← get
  match s.output, s.file with
  | some _, _ => throw .fileExistsError
  | none, none => throw .fileNotFoundError
  | none, some content => set { s with output := some (.regular content) }

/-- `register_tensor_plan`, from tensor `i` on. -/
def registerTensorPlan : List (TensorWriteEntry × ℕ) → ConversionM PUnit
  | [] => pure ⟨⟩
  | (entry, i) :: rest => do
    onWriter (OutputFile.addTensorInfo env i entry)
    registerTensorPlan rest

/-- The loop of `write_tensor_plan`. -/
def writeTensors : List (TensorWriteEntry × ℕ) → ConversionM PUnit
  | [] => pure ⟨⟩
  | (entry, i) :: rest => do
    raising env (.printProgress i)
    onWriter (OutputFile.writeTensorDataStream env i entry.chunks)
    writeTensors rest

/-- `GGUFWriter(None, arch="qwen3")`. -/
def newWriter (architecture : List UInt8) : ConversionM PUnit := do
  raising env .newWriter
  modify fun s =>
    { s with writer := some ⟨.noFile, GGUFWriter.defaultAlignment, [architecture], [], none⟩ }

/-- `add_model_metadata`, whose first call sets the alignment of the layout. -/
def addModelMetadata (input : ConversionInput) : ConversionM PUnit :=
  match alignmentForLayout input.row4Layout with
  | none => throw .valueError
  | some alignment => do
    onWriter (OutputFile.setAlignment alignment)
    onWriter (OutputFile.addKeyValues env .addModelMetadata input.metadata)

/-- The body of the `try` of `write_conversion_output`. -/
def writeTemporary (input : ConversionInput) : ConversionM PUnit := do
  newWriter env input.architecture
  addModelMetadata env input
  onWriter (OutputFile.addKeyValues env .addQwen2Vocab input.vocabulary)
  registerTensorPlan env input.plan.zipIdx
  let temporary ← createPrivateTemporary env
  modify fun s => { s with temporary := some temporary }
  onWriter (OutputFile.writeHeaderToFile env)
  onWriter (OutputFile.writeKvDataToFile env)
  onWriter (OutputFile.writeTiDataToFile env)
  writeTensors env input.plan.zipIdx

/-- The writer is closed where there is one, and what that raises is dropped. -/
def closeQuietly : ConversionM PUnit := do
  let s ← get
  match s.writer with
  | none => pure ⟨⟩
  | some _ => tryElse (onWriter (OutputFile.close env)) (fun _ => pure ⟨⟩) pure

/-- The `except` clause. -/
def closeAndRaise (e : PyError) : ConversionM PUnit := do
  closeQuietly env
  throw e

/-- The `else` clause. -/
def closeAndPublish : ConversionM PUnit := do
  onWriter (OutputFile.close env)
  modify fun s => { s with writer := none }
  let s ← get
  match s.temporary with
  | none => throw .assertionError
  | some _ => atomicPublishNoClobber env

/-- The `finally` clause. -/
def cleanup : ConversionM PUnit := do
  let s ← get
  match s.temporary with
  | none => pure ⟨⟩
  | some t => cleanupPrivateTemporary env t

end Conversion

open Conversion in
/-- `write_conversion_output`. -/
def writeConversionOutput (env : Environment) (input : ConversionInput) : ConversionM PUnit := do
  validateTensorPlanRow4Layout input.plan input.row4Layout
  raising env .resolveOutputPath
  refuseExisting env
  andFinally
    (tryElse (writeTemporary env input) (closeAndRaise env) fun _ => closeAndPublish env)
    (cleanup env)

end IFairy

import IFairy.Row4.WriteOutput

/-!
# The output path after a conversion

Before anything is published the writer's methods only touch the private file: `Stage` follows the
bytes that have been written, up to `ConversionInput.completeFile`.  Publishing is the one step
that changes the output path, and it is reached with the complete file only.  The cleanup never
touches the output path; it removes the private file unless the unlinking itself fails, which the
code ignores by design.
-/

namespace IFairy

open GGUFWriter

/-! ## The complete file -/

/-- What `write_tensor_data_stream` appends for an entry. -/
def appendTensor (align : ℕ) (content : List UInt8) (entry : TensorWriteEntry) : List UInt8 :=
  content ++ padding align content.length ++ entry.data ++ padding align entry.nbytes

namespace ConversionInput

variable (input : ConversionInput)

def alignment : ℕ := (alignmentForLayout input.row4Layout).getD defaultAlignment

def keyValues : List (List UInt8) := [input.architecture] ++ input.metadata ++ input.vocabulary

def tensorInfos : List (List UInt8 × TensorInfo) :=
  input.plan.map fun entry => (entry.name, entry.info)

/-- The file without the tensor data. -/
def filePreamble : List UInt8 :=
  (headerFields input.tensorInfos.length input.keyValues.length).flatten ++
    input.keyValues.flatten ++ tiData input.alignment input.tensorInfos 0

/-- The file with all its tensors. -/
def completeFile : List UInt8 := input.plan.foldl (appendTensor input.alignment) input.filePreamble

/-- Every tensor has the number of bytes it is registered with. -/
def SizesVerified : Prop := ∀ entry ∈ input.plan, entry.data.length = entry.nbytes

/-- The output path names the complete file, whose tensors passed their size verification. -/
def Published (s : Conversion) : Prop :=
  s.output = some (.regular input.completeFile) ∧ input.SizesVerified

end ConversionInput

/-! ## The methods of the writer -/

/-- Nothing is said of the state after an exception. -/
def anyState {σ : Type} (_ : PyError) (_ : σ) : Prop := True

variable {env : Environment}

lemma meets_anyState {σ α : Type} {P : σ → Prop} (prog : EStateM PyError σ α) :
    Meets P prog (fun _ _ => True) anyState :=
  fun _ _ => ⟨fun _ _ _ => trivial, fun _ _ _ => trivial⟩

lemma raising_meets {σ : Type} {P : σ → Prop} {E : PyError → σ → Prop} (c : Call)
    (hE : ∀ e n s, env.faults c = some (e, n) → P s → E e s) :
    Meets P (raising env c : EStateM PyError σ PUnit) (fun _ => P) E := by
  rw [raising]
  cases hc : env.faults c with
  | none => exact Meets.pure _ fun s hs => hs
  | some fault =>
    obtain ⟨e, n⟩ := fault
    exact Meets.throw e fun s hs => hE e n s hc hs

namespace OutputFile

/-- The writer is `w` up to its file object, which is open, and `content` has been written. -/
def Stage (w : GGUFWriter) (content : List UInt8) (s : OutputFile) : Prop :=
  ∃ file buffered, s = ⟨{ w with fout := some buffered }, some file⟩ ∧ file ++ buffered = content

variable {w : GGUFWriter} {content : List UInt8}

lemma Stage.content_eq {s : OutputFile} (h : Stage w content s) : s.content = content := by
  obtain ⟨file, buffered, rfl, hcontent⟩ := h
  exact hcontent

lemma Stage.buffer {s : OutputFile} (h : Stage w content s) (bytes : List UInt8) :
    Stage w (content ++ bytes) (s.buffer bytes) := by
  obtain ⟨file, buffered, rfl, rfl⟩ := h
  exact ⟨file, buffered ++ bytes, rfl, (List.append_assoc file buffered bytes).symm⟩

lemma Stage.flushed {s : OutputFile} (h : Stage w content s) : Stage w content s.flushed := by
  obtain ⟨file, buffered, rfl, rfl⟩ := h
  exact ⟨file ++ buffered, [], rfl, List.append_nil _⟩

lemma fileCall_meets {c : Call} {bytes content' : List UInt8} {done : OutputFile → OutputFile}
    (hdone : ∀ s, Stage w (content ++ bytes) s → Stage w content' (done s)) :
    Meets (Stage w content) (fileCall env c bytes done) (fun _ => Stage w content') anyState := by
  intro s hs
  refine ⟨fun u s' hrun => ?_, fun e s' hrun => trivial⟩
  rw [fileCall] at hrun
  split at hrun
  · cases hrun
  · split at hrun
    · cases hrun
      exact hdone _ (hs.buffer bytes)
    · cases hrun

lemma write_meets (c : Call) (bytes : List UInt8) :
    Meets (Stage w content) (write env c bytes) (fun _ => Stage w (content ++ bytes)) anyState :=
  fileCall_meets fun _ hs => hs

lemma flush_meets (c : Call) :
    Meets (Stage w content) (flush env c) (fun _ => Stage w content) anyState := by
  refine fileCall_meets fun s hs => ?_
  rw [List.append_nil] at hs
  exact hs.flushed

lemma tofile_meets (c : Call) (chunk : List UInt8) :
    Meets (Stage w content) (tofile env c chunk) (fun _ => Stage w (content ++ chunk)) anyState :=
  fileCall_meets fun _ hs => hs.flushed

lemma expectState_meets {P : OutputFile → Prop} {E : PyError → OutputFile → Prop}
    (expected : List WriterState) (hE : ∀ e s, P s → E e s) :
    Meets P (expectState expected) (fun _ => P) E := by
  intro s hs
  rw [expectState]
  split
  · refine ⟨fun u s' hrun => ?_, fun e s' hrun => by cases hrun⟩
    cases hrun
    exact hs
  · refine ⟨fun u s' hrun => (by cases hrun), fun e s' hrun => ?_⟩
    cases hrun
    exact hE _ _ hs

lemma setState_meets (state : WriterState) :
    Meets (Stage w content) (setState state) (fun _ => Stage { w with state := state } content)
      anyState := by
  refine Meets.modify _ fun s hs => ?_
  obtain ⟨file, buffered, rfl, hcontent⟩ := hs
  exact ⟨file, buffered, rfl, hcontent⟩

lemma writePadding_meets (c : Call) (n : ℕ) :
    Meets (Stage w content) (writePadding env c n)
      (fun _ => Stage w (content ++ padding w.dataAlignment n)) anyState := by
  refine Meets.get_bind fun s hs => ?_
  obtain ⟨file, buffered, rfl, hcontent⟩ := hs
  dsimp only
  split
  · rename_i hpad
    rw [hpad, List.append_nil]
    exact Meets.pure _ fun s hs => hs
  · exact write_meets c _

lemma writeFields_meets (fields : List (List UInt8 × ℕ)) :
    Meets (Stage w content) (writeFields env fields)
      (fun _ => Stage w (content ++ (fields.map Prod.fst).flatten)) anyState := by
  induction fields generalizing content with
  | nil => exact Meets.pure _ fun s hs => by rwa [List.map_nil, List.flatten_nil, List.append_nil]
  | cons x fields ih =>
    obtain ⟨field, k⟩ := x
    refine (write_meets _ field).seq (ih.weaken (fun s hs => hs) (fun u s hs => ?_) fun e s he => he)
    rwa [List.map_cons, List.flatten_cons, ← List.append_assoc]

lemma openOutputFile_meets :
    Meets (fun s => s.writer = w) (openOutputFile env)
      (fun _ => Stage { w with state := .empty } []) anyState := by
  refine (expectState_meets _ fun e s hs => trivial).seq ?_
  rintro s rfl
  refine ⟨fun u s' hrun => ?_, fun e s' hrun => trivial⟩
  split at hrun
  · cases hrun
    exact ⟨[], [], rfl, rfl⟩
  · cases hrun

lemma writeHeaderToFile_meets :
    Meets (fun s => s.writer = w) (writeHeaderToFile env)
      (fun _ => Stage { w with state := .header }
        (headerFields w.tensors.length w.kvData.length).flatten) anyState := by
  refine openOutputFile_meets.seq ((expectState_meets _ fun e s hs => trivial).seq ?_)
  refine Meets.get_bind fun s hs => ?_
  obtain ⟨file, buffered, rfl, hcontent⟩ := hs
  refine (writeFields_meets _).seq ((flush_meets _).seq ?_)
  refine (setState_meets .header).weaken (fun s hs => hs) (fun u s hs => ?_) fun e s he => he
  rwa [List.zipIdx_map_fst, List.nil_append] at hs

lemma writeKvDataToFile_meets :
    Meets (Stage w content) (writeKvDataToFile env)
      (fun _ => Stage { w with state := .kvData } (content ++ w.kvData.flatten)) anyState := by
  refine (expectState_meets _ fun e s hs => trivial).seq (Meets.get_bind fun s hs => ?_)
  obtain ⟨file, buffered, rfl, hcontent⟩ := hs
  exact (write_meets _ _).seq ((flush_meets _).seq (setState_meets _))

lemma writeTiDataToFile_meets :
    Meets (Stage w content) (writeTiDataToFile env)
      (fun _ => Stage { w with state := .tiData } (content ++ tiData w.dataAlignment w.tensors 0))
      anyState := by
  refine (expectState_meets _ fun e s hs => trivial).seq (Meets.get_bind fun s hs => ?_)
  obtain ⟨file, buffered, rfl, hcontent⟩ := hs
  exact (write_meets _ _).seq ((flush_meets _).seq (setState_meets _))

lemma streamChunks_meets (i nbytes : ℕ) (chunks : List (List UInt8 × ℕ)) (n : ℕ) :
    Meets (Stage w content) (streamChunks env i nbytes chunks n)
      (fun m s => m = n + (chunks.map Prod.fst).flatten.length ∧
        Stage w (content ++ (chunks.map Prod.fst).flatten) s) anyState := by
  induction chunks generalizing content n with
  | nil =>
    refine (raising_meets _ fun _ _ _ _ _ => trivial).seq (Meets.pure _ fun s hs => ⟨rfl, ?_⟩)
    rwa [List.map_nil, List.flatten_nil, List.append_nil]
  | cons x chunks ih =>
    obtain ⟨chunk, j⟩ := x
    refine (raising_meets _ fun _ _ _ _ _ => trivial).seq ?_
    split
    · exact Meets.throw _ fun s hs => trivial
    · refine (tofile_meets _ chunk).seq ((ih _).weaken (fun s hs => hs) ?_ fun e s he => he)
      rintro m s ⟨rfl, hs⟩
      rw [List.map_cons, List.flatten_cons, ← List.append_assoc, List.length_append]
      exact ⟨Nat.add_assoc _ _ _, hs⟩

lemma streamTensor_meets (i : ℕ) (entry : TensorWriteEntry) :
    Meets (Stage w content) (streamTensor env i content.length entry.nbytes entry.chunks)
      (fun _ s => entry.data.length = entry.nbytes ∧
        Stage w (appendTensor w.dataAlignment content entry) s) anyState := by
  refine (writePadding_meets _ _).seq ((streamChunks_meets i _ _ 0).bind fun n => ?_)
  rw [List.zipIdx_map_fst, Nat.zero_add]
  split
  · exact Meets.throw _ fun s hs => trivial
  · rename_i hn
    rintro s ⟨rfl, hs⟩
    have hlength : entry.data.length = entry.nbytes := not_not.1 hn
    have hpad := @writePadding_meets env w
      (content ++ padding w.dataAlignment content.length ++ entry.data) (.padAfter i)
      entry.data.length
    refine hpad.weaken (fun s hs => hs) (fun u s hs => ⟨hlength, ?_⟩) (fun e s he => he) s hs
    rwa [hlength] at hs

lemma writeTensorDataStream_meets (i : ℕ) (entry : TensorWriteEntry)
    {rest : List (List UInt8 × TensorInfo)} (hw : w.tensors = (entry.name, entry.info) :: rest) :
    Meets (Stage w content) (writeTensorDataStream env i entry.chunks)
      (fun _ s => entry.data.length = entry.nbytes ∧
        Stage { w with tensors := rest, state := .weights }
          (appendTensor w.dataAlignment content entry) s) anyState := by
  refine (expectState_meets _ fun e s hs => trivial).seq (Meets.get_bind fun s hs => ?_)
  have htensors : s.writer.tensors = (entry.name, entry.info) :: rest := by
    obtain ⟨file, buffered, rfl, -⟩ := hs
    exact hw
  rw [htensors, hs.content_eq]
  refine (streamTensor_meets i entry).tryElse (fun e => ?_) fun _ => ?_
  · exact (meets_anyState _).seq ((meets_anyState _).seq (Meets.throw e fun s hs => trivial))
  · refine Meets.seq (Q := fun s => entry.data.length = entry.nbytes ∧
      Stage { w with tensors := rest } (appendTensor w.dataAlignment content entry) s)
      (Meets.modify _ fun s hs => ?_) ?_
    · obtain ⟨hsize, file, buffered, rfl, hcontent⟩ := hs
      exact ⟨hsize, file, buffered, rfl, hcontent⟩
    · rintro s ⟨hsize, hs⟩
      exact ((setState_meets .weights).weaken (fun s hs => hs) (fun u s hs => ⟨hsize, hs⟩)
        fun e s he => he) s hs

/-! ### The methods before the file is opened -/

lemma setAlignment_meets (alignment : ℕ) {E : PyError → OutputFile → Prop} :
    Meets (fun f => f = ⟨w, none⟩) (setAlignment alignment)
      (fun _ f => f = ⟨{ w with dataAlignment := alignment }, none⟩) E := by
  refine Meets.modify _ fun s hs => ?_
  rw [hs]

lemma addKeyValues_meets (c : Call) (pairs : List (List UInt8)) :
    Meets (fun f => f = ⟨w, none⟩) (addKeyValues env c pairs)
      (fun _ f => f = ⟨{ w with kvData := w.kvData ++ pairs }, none⟩) (fun _ f => f = ⟨w, none⟩) := by
  refine (raising_meets c fun _ _ _ _ hs => hs).seq (Meets.modify _ fun s hs => ?_)
  rw [hs]

lemma addTensorInfo_meets (i : ℕ) (entry : TensorWriteEntry) :
    Meets (fun f => f = ⟨w, none⟩) (addTensorInfo env i entry)
      (fun _ f => f = ⟨{ w with tensors := w.tensors ++ [(entry.name, entry.info)] }, none⟩)
      (fun _ f => f = ⟨w, none⟩) := by
  refine (raising_meets _ fun _ _ _ _ hs => hs).seq
    ((expectState_meets _ fun e s hs => hs).seq (Meets.get_bind fun s hs => ?_))
  subst hs
  split
  · exact Meets.throw _ fun s hs => hs
  · exact Meets.modify (fun _ => _) fun s _ => rfl

lemma close_meets (f₀ : OutputFile) :
    Meets (fun f => f = f₀) (close env) (fun _ f => f₀.writer.fout = none → f = f₀)
      (fun _ f => f₀.writer.fout = none → f = f₀) := by
  refine Meets.get_bind fun s hs => ?_
  subst hs
  cases hfout : s.writer.fout with
  | none => exact Meets.pure _ fun _ hs _ => hs
  | some buffered => exact fun _ _ => ⟨fun _ _ _ h => (by cases h), fun _ _ _ h => by cases h⟩

lemma close_meets_stage :
    Meets (Stage w content) (close env) (fun _ f => f.file = some content) anyState := by
  refine Meets.get_bind fun s hs => ?_
  obtain ⟨file, buffered, rfl, rfl⟩ := hs
  intro s hs
  refine ⟨fun u s' hrun => ?_, fun e s' hrun => trivial⟩
  obtain ⟨file', buffered', rfl, hcontent⟩ := hs
  dsimp only [fileCall] at hrun
  split at hrun
  · cases hrun
    change some (file' ++ (buffered' ++ [])) = _
    rw [List.append_nil, hcontent]
  · cases hrun

end OutputFile

/-! ## The conversion -/

namespace Conversion

open OutputFile

variable {w : GGUFWriter} {input : ConversionInput} {output : Option OutputNode}

lemma onWriter_meets {α : Type} {method : WriterM α} {S : OutputFile → Prop}
    {T : α → OutputFile → Prop} {F : PyError → OutputFile → Prop} {P : Conversion → Prop}
    {Q : α → Conversion → Prop} {E : PyError → Conversion → Prop} (h : Meets S method T F)
    (hget : ∀ s, P s → ∃ f, s.outputFile = some f ∧ S f)
    (hput : ∀ s f a, P s → T a f → Q a (s.setOutputFile f))
    (hraise : ∀ s f e, P s → F e f → E e (s.setOutputFile f)) :
    Meets P (onWriter method) Q E := by
  refine Meets.of_forall_eq fun s hs => h.onPart (fun f hf => ?_) (fun hnone => ?_)
    (fun a f hf => hput s f a hs hf) fun e f hf => hraise s f e hs hf
  · obtain ⟨f', hf', hS⟩ := hget s hs
    rw [hf, Option.some_inj] at hf'
    exact hf' ▸ hS
  · obtain ⟨f', hf', hS⟩ := hget s hs
    rw [hnone] at hf'
    cases hf'

/-- The cleanup of this state leaves no file behind: without a private directory there is none,
and no file object that could still write one. -/
structure Owned (output : Option OutputNode) (s : Conversion) : Prop where
  output_eq : s.output = output
  file_eq : s.temporary = none → s.file = none
  fout_eq : ∀ w, s.temporary = none → s.writer = some w → w.fout = none
  open_fd : ∀ t, s.temporary = some t → 0 ≤ t.directoryFd

/-- Before the private directory is known to the call. -/
def Preparing (w : GGUFWriter) (directory : Option (ℕ × ℕ)) : Conversion :=
  ⟨none, directory, none, some w, none⟩

lemma owned_preparing {directory : Option (ℕ × ℕ)} (hw : w.fout = none) :
    Owned none (Preparing w directory) := by
  refine ⟨rfl, fun _ => rfl, fun w' _ hw' => ?_, fun t ht => by cases ht⟩
  cases hw'
  exact hw

lemma preparing_meets {α : Type} {method : WriterM α} {w' : GGUFWriter} (hw : w.fout = none)
    (h : Meets (fun f => f = ⟨w, none⟩) method (fun _ f => f = ⟨w', none⟩)
      (fun _ f => f = ⟨w, none⟩)) :
    Meets (fun s => s = Preparing w none) (onWriter method) (fun _ s => s = Preparing w' none)
      (fun _ => Owned none) := by
  refine onWriter_meets h ?_ ?_ ?_
  · rintro s rfl
    exact ⟨_, rfl, rfl⟩
  · rintro s f a rfl rfl
    rfl
  · rintro s f e rfl rfl
    exact owned_preparing hw

lemma registerTensorPlan_meets (plan : List (TensorWriteEntry × ℕ)) (hw : w.fout = none) :
    Meets (fun s => s = Preparing w none) (registerTensorPlan env plan)
      (fun _ s => s = Preparing { w with
        tensors := w.tensors ++ (plan.map Prod.fst).map fun entry => (entry.name, entry.info) } none)
      (fun _ => Owned none) := by
  induction plan generalizing w with
  | nil =>
    refine Meets.pure _ fun s hs => ?_
    rw [hs, List.map_nil, List.map_nil, List.append_nil]
  | cons x plan ih =>
    obtain ⟨entry, i⟩ := x
    refine (preparing_meets hw (addTensorInfo_meets i entry)).seq
      ((ih (w := { w with tensors := w.tensors ++ [(entry.name, entry.info)] }) hw).weaken
        (fun s hs => hs) (fun u s hs => ?_) fun e s he => he)
    rw [hs, List.append_assoc]
    rfl

lemma createPrivateTemporary_meets (hw : w.fout = none) :
    Meets (fun s => s = Preparing w none) (createPrivateTemporary env)
      (fun t s => 0 ≤ t.directoryFd ∧ s = Preparing w (some env.directoryId))
      (fun _ => Owned none) := by
  have hraise {c : Call} {directory : Option (ℕ × ℕ)} :
      Meets (fun s => s = Preparing w directory) (raising env c : ConversionM PUnit)
        (fun _ s => s = Preparing w directory) fun _ s => s = Preparing w directory :=
    raising_meets c fun _ _ _ _ hs => hs
  have howned {directory : Option (ℕ × ℕ)} (e : PyError) (s : Conversion)
      (hs : s = Preparing w directory) : Owned none s := hs ▸ owned_preparing hw
  refine (hraise.weaken (fun s hs => hs) (fun _ s hs => hs) howned).seq
    ((hraise.weaken (fun s hs => hs) (fun _ s hs => hs) howned).seq ?_)
  refine Meets.seq (Q := fun s => s = Preparing w (some env.directoryId))
    (Meets.modify _ fun s hs => hs ▸ rfl) ?_
  refine hraise.tryElse (fun e => ?_) fun _ => ?_
  · refine Meets.seq (Q := fun s => s = Preparing w none) ?_ (Meets.throw e (howned e))
    refine (hraise.weaken (fun s hs => hs) (fun _ s hs => hs) howned).seq
      (Meets.get_bind fun s hs => ?_)
    subst hs
    exact Meets.modify (fun _ => _) fun s _ => rfl
  · exact (hraise.weaken (fun s hs => hs) (fun _ s hs => hs) howned).seq
      (Meets.pure _ fun s hs => ⟨Int.natCast_nonneg _, hs⟩)

/-- The private directory is known to the call and the writer is at `S`. -/
def Writing (S : OutputFile → Prop) (s : Conversion) : Prop :=
  s.output = none ∧ (∃ t, s.temporary = some t ∧ 0 ≤ t.directoryFd) ∧
    ∃ f, s.outputFile = some f ∧ S f

lemma Owned.of_temporary {s : Conversion} {t : PrivateTemporaryOutput} (houtput : s.output = output)
    (htemporary : s.temporary = some t) (hopen : 0 ≤ t.directoryFd) : Owned output s := by
  have hsome : s.temporary ≠ none := by simp only [htemporary, ne_eq, reduceCtorEq, not_false_eq_true]
  refine ⟨houtput, fun h => absurd h hsome, fun w h => absurd h hsome, fun t' ht' => ?_⟩
  rw [htemporary, Option.some_inj] at ht'
  exact ht' ▸ hopen

lemma Writing.owned {S : OutputFile → Prop} {s : Conversion} (h : Writing S s) : Owned none s := by
  obtain ⟨houtput, ⟨t, htemporary, hopen⟩, -⟩ := h
  exact Owned.of_temporary houtput htemporary hopen

lemma writing_meets {α : Type} {method : WriterM α} {S : OutputFile → Prop}
    {T : α → OutputFile → Prop} (h : Meets S method T anyState) :
    Meets (Writing S) (onWriter method) (fun a => Writing (T a)) (fun _ => Owned none) := by
  refine onWriter_meets h (fun s hs => hs.2.2) (fun s f a hs hf => ?_) fun s f e hs _ => ?_
  · exact ⟨hs.1, hs.2.1, f, rfl, hf⟩
  · obtain ⟨houtput, ⟨t, htemporary, hopen⟩, -⟩ := hs
    exact Owned.of_temporary houtput htemporary hopen

lemma writeTensors_meets {content : List UInt8} (plan : List (TensorWriteEntry × ℕ))
    (hw : w.tensors = (plan.map Prod.fst).map fun entry => (entry.name, entry.info)) :
    Meets (Writing (OutputFile.Stage w content)) (writeTensors env plan)
      (fun _ s => (∀ entry ∈ plan.map Prod.fst, entry.data.length = entry.nbytes) ∧
        Writing (fun f => ∃ w', OutputFile.Stage w'
          ((plan.map Prod.fst).foldl (appendTensor w.dataAlignment) content) f) s)
      (fun _ => Owned none) := by
  induction plan generalizing w content with
  | nil =>
    refine Meets.pure _ fun s hs => ⟨fun entry hentry => (by cases hentry), ?_⟩
    obtain ⟨houtput, htemporary, f, hf, hstage⟩ := hs
    exact ⟨houtput, htemporary, f, hf, w, hstage⟩
  | cons x plan ih =>
    obtain ⟨entry, i⟩ := x
    have hwrite := writing_meets (@writeTensorDataStream_meets env w content i entry _ hw)
    refine (raising_meets _ fun e n s _ hs => hs.owned).seq (hwrite.seq ?_)
    rintro s ⟨houtput, htemporary, f, hf, hsize, hstage⟩
    refine ((ih (w := { w with
      tensors := (plan.map Prod.fst).map fun entry => (entry.name, entry.info), state := .weights })
      rfl).weaken (fun s hs => hs) (fun u s hs => ?_) fun e s he => he) s
      ⟨houtput, htemporary, f, hf, hstage⟩
    exact ⟨List.forall_mem_cons.2 ⟨hsize, hs.1⟩, hs.2⟩

/-- The body of the `try` either raises before the output path is touched, or it leaves the
complete file, every tensor of which has its registered size. -/
lemma writeTemporary_meets :
    Meets (fun s => s = start none) (writeTemporary env input)
      (fun _ s => input.SizesVerified ∧
        Writing (fun f => ∃ w, OutputFile.Stage w input.completeFile f) s)
      (fun _ => Owned none) := by
  have hstart (e : PyError) (s : Conversion) (hs : s = start none) : Owned none s := by
    subst hs
    exact ⟨rfl, fun _ => rfl, fun w _ hw => (by cases hw), fun t ht => by cases ht⟩
  refine Meets.seq (Q := fun s => s = Preparing
    ⟨.noFile, defaultAlignment, [input.architecture], [], none⟩ none) ?_ ?_
  · refine (raising_meets _ fun e n s _ hs => hstart e s hs).seq (Meets.modify _ fun s hs => ?_)
    rw [hs]
    rfl
  refine Meets.seq (Q := fun s => s = Preparing
    ⟨.noFile, input.alignment, [input.architecture] ++ input.metadata, [], none⟩ none) ?_ ?_
  · rw [addModelMetadata, ConversionInput.alignment]
    cases alignmentForLayout input.row4Layout with
    | none =>
      refine Meets.throw _ fun s hs => ?_
      rw [hs]
      exact owned_preparing rfl
    | some alignment =>
      exact (preparing_meets rfl (setAlignment_meets alignment)).seq
        (preparing_meets rfl (addKeyValues_meets _ _))
  refine (preparing_meets rfl (addKeyValues_meets _ input.vocabulary)).seq ?_
  refine (registerTensorPlan_meets _ rfl).seq ((createPrivateTemporary_meets rfl).bind fun t => ?_)
  rw [List.zipIdx_map_fst]
  refine Meets.seq (Q := Writing fun f => f.writer =
    ⟨.noFile, input.alignment, input.keyValues, input.tensorInfos, none⟩) ?_ ?_
  · refine Meets.modify _ fun s hs => ?_
    obtain ⟨hopen, rfl⟩ := hs
    exact ⟨rfl, ⟨t, rfl, hopen⟩, _, rfl, rfl⟩
  refine (writing_meets writeHeaderToFile_meets).seq ((writing_meets writeKvDataToFile_meets).seq
    ((writing_meets writeTiDataToFile_meets).seq ?_))
  refine (writeTensors_meets input.plan.zipIdx ?_).weaken (fun s hs => hs) (fun u s hs => ?_)
    fun e s he => he
  · rw [List.zipIdx_map_fst]
    rfl
  · rwa [List.zipIdx_map_fst] at hs

/-! ## Publishing -/

lemma outputFile_eq_some {s : Conversion} {f : OutputFile} (h : s.outputFile = some f) :
    s.setOutputFile f = s := by
  obtain ⟨output, directory, file, writer, temporary⟩ := s
  cases writer with
  | none => cases h
  | some w =>
    cases h
    rfl

lemma Owned.setOutputFile {s : Conversion} {f₀ f : OutputFile} (h : Owned output s)
    (hf₀ : s.outputFile = some f₀) (hkept : f₀.writer.fout = none → f = f₀) :
    Owned output (s.setOutputFile f) := by
  cases htemporary : s.temporary with
  | some t => exact Owned.of_temporary h.output_eq htemporary (h.open_fd t htemporary)
  | none =>
    have hwriter : s.writer = some f₀.writer := by
      rw [← outputFile_eq_some hf₀]
      rfl
    obtain rfl := hkept (h.fout_eq _ htemporary hwriter)
    rwa [outputFile_eq_some hf₀]

lemma onWriter_close_meets :
    Meets (Owned output) (onWriter (OutputFile.close env)) (fun _ => Owned output)
      (fun _ => Owned output) := by
  refine Meets.of_forall_eq fun s₀ h₀ => ?_
  have hclose : Meets (fun f => s₀.outputFile = some f) (OutputFile.close env)
      (fun _ f => Owned output (s₀.setOutputFile f))
      (fun _ f => Owned output (s₀.setOutputFile f)) := by
    refine Meets.of_forall_eq fun f₀ hf₀ => ?_
    exact (close_meets f₀).weaken (fun f hf => hf) (fun _ f hf => h₀.setOutputFile hf₀ hf)
      fun _ f hf => h₀.setOutputFile hf₀ hf
  exact hclose.onPart (fun f hf => hf) (fun _ => h₀) (fun _ f hf => hf) fun _ f hf => hf

lemma closeAndRaise_meets (e : PyError) :
    Meets (Owned output) (closeAndRaise env e) (fun _ _ => False) (fun _ => Owned output) := by
  have hclose : Meets (Owned output) (closeQuietly env) (fun _ => Owned output)
      (fun _ => Owned output) := by
    refine Meets.get_bind fun s hs => ?_
    cases hwriter : s.writer with
    | none => exact Meets.pure _ fun s hs => hs
    | some w =>
      exact onWriter_close_meets.tryElse (fun _ => Meets.pure _ fun s hs => hs)
        fun _ => Meets.pure _ fun s hs => hs
  exact hclose.seq (Meets.throw e fun s hs => hs)

/-- The writer is closed and the private file is complete. -/
def Closed (content : List UInt8) (s : Conversion) : Prop :=
  s.output = none ∧ (∃ t, s.temporary = some t ∧ 0 ≤ t.directoryFd) ∧ s.file = some content

lemma Closed.owned {content : List UInt8} {s : Conversion} (h : Closed content s) :
    Owned none s := by
  obtain ⟨houtput, ⟨t, htemporary, hopen⟩, -⟩ := h
  exact Owned.of_temporary houtput htemporary hopen

lemma atomicPublishNoClobber_meets {content : List UInt8} :
    Meets (Closed content) (atomicPublishNoClobber env)
      (fun _ => Owned (some (.regular content))) (fun _ => Owned none) := by
  refine (raising_meets _ fun e n s _ hs => hs.owned).seq (Meets.get_bind fun s hs => ?_)
  obtain ⟨houtput, ⟨t, htemporary, hopen⟩, hfile⟩ := hs
  rw [houtput, hfile]
  exact Meets.modify (fun _ => _) fun _ _ => Owned.of_temporary rfl htemporary hopen

lemma closeAndPublish_meets {content : List UInt8} :
    Meets (Writing fun f => ∃ w, OutputFile.Stage w content f) (closeAndPublish env)
      (fun _ => Owned (some (.regular content))) (fun _ => Owned none) := by
  have hclose : Meets (fun f => ∃ w, OutputFile.Stage w content f) (OutputFile.close env)
      (fun _ f => f.file = some content) anyState := by
    rintro f ⟨w, hf⟩
    exact close_meets_stage f hf
  refine (writing_meets hclose).seq (Meets.seq (Q := Closed content) ?_ ?_)
  · refine Meets.modify _ fun s hs => ?_
    obtain ⟨houtput, htemporary, f, hf, hfile⟩ := hs
    rw [← outputFile_eq_some hf]
    exact ⟨houtput, htemporary, hfile⟩
  · refine Meets.get_bind fun s hs => ?_
    obtain ⟨-, ⟨t, htemporary, -⟩, -⟩ := hs
    rw [htemporary]
    exact atomicPublishNoClobber_meets

/-! ## The cleanup -/

/-- A call of the cleanup raises an exception that the code does not ignore. -/
def CleanupRaises (env : Environment) : Prop :=
  (∃ e n, env.faults .unlink = some (e, n) ∧ e.isOSError = false) ∨
    env.faults .closeDirectory ≠ none ∨
    (∃ e n, env.faults .lstat = some (e, n) ∧ e ≠ .fileNotFoundError) ∨
    ∃ e n, env.faults .rmdir = some (e, n) ∧ e.isOSError = false

/-- The output path is as it was and, where the unlinking works, the private file is gone. -/
def Cleaned (env : Environment) (output : Option OutputNode) (s : Conversion) : Prop :=
  s.output = output ∧ (env.faults .unlink = none → s.file = none)

lemma unlink_meets :
    Meets (fun s => s.output = output) (unlink env) (fun _ => Cleaned env output)
      (fun e s => Cleaned env output s ∧ (e.isOSError = false → CleanupRaises env)) := by
  refine (raising_meets _ fun e n s hfault hs => ?_).seq (Meets.get_bind_eq fun s hs => ?_)
  · refine ⟨⟨hs, fun h => ?_⟩, fun he => .inl ⟨e, n, hfault, he⟩⟩
    rw [hfault] at h
    cases h
  cases hfile : s.file with
  | none =>
    refine Meets.throw _ ?_
    rintro s' rfl
    exact ⟨⟨hs, fun _ => hfile⟩, fun h => by cases h⟩
  | some file =>
    refine Meets.modify (fun _ => _) ?_
    rintro s' rfl
    exact ⟨hs, fun _ => rfl⟩

lemma ignoreOSError_meets (e : PyError) :
    Meets (fun s => Cleaned env output s ∧ (e.isOSError = false → CleanupRaises env))
      (ignoreOSError e) (fun _ => Cleaned env output)
      (fun _ s => Cleaned env output s ∧ CleanupRaises env) := by
  rw [ignoreOSError]
  split
  · exact Meets.pure _ fun s hs => hs.1
  · rename_i he
    exact Meets.throw _ fun s hs => ⟨hs.1, hs.2 (Bool.eq_false_iff.2 he)⟩

lemma closeDirectory_meets :
    Meets (Cleaned env output) (closeDirectory env) (fun _ => Cleaned env output)
      (fun _ s => Cleaned env output s ∧ CleanupRaises env) := by
  refine (raising_meets _ fun e n s hfault hs => ⟨hs, .inr (.inl ?_)⟩).seq
    (Meets.modify _ fun s hs => hs)
  rw [hfault]
  exact Option.some_ne_none _

lemma lstat_meets :
    Meets (Cleaned env output) (lstat env) (fun _ => Cleaned env output)
      (fun e s => Cleaned env output s ∧ (e ≠ .fileNotFoundError → CleanupRaises env)) := by
  refine (raising_meets _ fun e n s hfault hs => ?_).seq (Meets.get_bind fun s hs => ?_)
  · exact ⟨hs, fun he => .inr (.inr (.inl ⟨e, n, hfault, he⟩))⟩
  · cases s.directory with
    | none => exact Meets.throw _ fun s hs => ⟨hs, fun h => absurd rfl h⟩
    | some directoryId => exact Meets.pure _ fun s hs => hs

lemma removeDirectory_meets :
    Meets (Cleaned env output) (removeDirectory env .rmdir) (fun _ => Cleaned env output)
      (fun e s => Cleaned env output s ∧ (e.isOSError = false → CleanupRaises env)) := by
  refine (raising_meets _ fun e n s hfault hs => ?_).seq (Meets.get_bind_eq fun s hs => ?_)
  · exact ⟨hs, fun he => .inr (.inr (.inr ⟨e, n, hfault, he⟩))⟩
  · cases hfile : s.file with
    | some file =>
      refine Meets.throw _ ?_
      rintro s' rfl
      exact ⟨hs, fun h => by cases h⟩
    | none => exact Meets.modify (fun _ => _) fun _ _ => ⟨hs.1, fun _ => rfl⟩

lemma unlinkAndClose_meets {t : PrivateTemporaryOutput} (hopen : 0 ≤ t.directoryFd) :
    Meets (fun s => s.output = output) (unlinkAndClose env t)
      (fun _ => Cleaned env output) (fun _ s => Cleaned env output s ∧ CleanupRaises env) := by
  rw [unlinkAndClose, if_pos hopen]
  refine (unlink_meets.tryElse ignoreOSError_meets fun _ => Meets.pure _ fun s hs => hs).andFinally
    (fun _ => closeDirectory_meets) fun _ => ?_
  rintro s ⟨hs, hraises⟩
  exact (closeDirectory_meets.weaken (fun s hs => hs) (fun _ s hs => ⟨hs, hraises⟩)
    fun _ s hs => hs) s hs

lemma removePrivateDirectory_meets (t : PrivateTemporaryOutput) :
    Meets (Cleaned env output) (removePrivateDirectory env t) (fun _ => Cleaned env output)
      (fun _ s => Cleaned env output s ∧ CleanupRaises env) := by
  refine lstat_meets.tryElse (fun e => ?_) fun current => ?_
  · split
    · exact Meets.pure _ fun s hs => hs.1
    · rename_i he
      exact Meets.throw _ fun s hs => ⟨hs.1, hs.2 he⟩
  · split
    · exact Meets.pure _ fun s hs => hs
    · exact removeDirectory_meets.tryElse ignoreOSError_meets fun _ => Meets.pure _ fun s hs => hs

lemma cleanup_meets :
    Meets (Owned output) (cleanup env) (fun _ => Cleaned env output)
      (fun _ s => Cleaned env output s ∧ CleanupRaises env) := by
  refine Meets.get_bind_eq fun s hs => ?_
  cases htemporary : s.temporary with
  | none =>
    refine Meets.pure _ ?_
    rintro s' rfl
    exact ⟨hs.output_eq, fun _ => hs.file_eq htemporary⟩
  | some t =>
    refine ((unlinkAndClose_meets (hs.open_fd t htemporary)).seq
      (removePrivateDirectory_meets t)).weaken ?_ (fun _ s hs => hs)
      fun _ s hs => hs
    rintro s' rfl
    exact hs.output_eq

end Conversion

/-! ## The whole call -/

open Conversion

variable {input : ConversionInput} {output : Option OutputNode}

/-- The part of the call from its `try` on. -/
lemma conversion_meets :
    Meets (fun s => s = start none)
      (andFinally
        (tryElse (writeTemporary env input) (closeAndRaise env) fun _ => closeAndPublish env)
        (cleanup env))
      (fun _ s => input.SizesVerified ∧ Cleaned env (some (.regular input.completeFile)) s)
      (fun _ s => Cleaned env none s ∨ CleanupRaises env ∧ input.SizesVerified ∧
        Cleaned env (some (.regular input.completeFile)) s) := by
  refine Meets.andFinally (Q := fun _ s => input.SizesVerified ∧
    Owned (some (.regular input.completeFile)) s) (E := fun _ => Owned none) ?_ (fun _ => ?_) fun _ => ?_
  · refine writeTemporary_meets.tryElse (fun e => ?_) fun _ => ?_
    · exact (closeAndRaise_meets e).weaken (fun s hs => hs) (fun _ s hs => hs.elim)
        fun _ s hs => hs
    · rintro s ⟨hsizes, hs⟩
      exact (closeAndPublish_meets.weaken (fun s hs => hs) (fun _ s hs => ⟨hsizes, hs⟩)
        fun _ s hs => hs) s hs
  · rintro s ⟨hsizes, hs⟩
    exact (cleanup_meets.weaken (fun s hs => hs) (fun _ s hs => ⟨hsizes, hs⟩)
      fun _ s hs => .inr ⟨hs.2, hsizes, hs.1⟩) s hs
  · exact cleanup_meets.weaken (fun s hs => hs) (fun _ s hs => .inl hs) fun _ s hs => .inl hs.1

lemma OutputNode.refused (node : OutputNode) : (node.exists || node.isSymlink) = true := by
  cases node with
  | regular content => rfl
  | directory => rfl
  | symlink dangling => exact Bool.or_true _

/-- The checks before the `try` change nothing and let no existing output path through. -/
lemma refuseExisting_meets :
    Meets (fun s => s = start output) (refuseExisting env)
      (fun _ s => output = none ∧ s = start none) (fun _ s => s = start output) := by
  refine (raising_meets _ fun _ _ _ _ hs => hs).seq (Meets.get_bind fun s hs => ?_)
  subst hs
  cases output with
  | none => exact Meets.pure _ fun s hs => ⟨rfl, hs⟩
  | some node =>
    rw [start, Option.any_some, if_pos node.refused]
    exact Meets.throw _ fun s hs => hs

lemma validateTensorPlanRow4Layout_meets {P : Conversion → Prop} (plan : List TensorWriteEntry)
    (row4Layout : String) :
    Meets P (validateTensorPlanRow4Layout plan row4Layout) (fun _ => P) (fun _ => P) := by
  rw [validateTensorPlanRow4Layout]
  split
  · exact Meets.throw _ fun s hs => hs
  · split
    · exact Meets.throw _ fun s hs => hs
    · exact Meets.pure _ fun s hs => hs

/-- After a return the output path, which named nothing, names the complete file with verified
sizes.  After an exception it is as it was, unless it is the cleanup after the publication that
raised.  Where the unlinking of the cleanup works, no private file is left. -/
theorem writeConversionOutput_publishes_or_keeps (env : Environment) (input : ConversionInput)
    (output : Option OutputNode) :
    (∀ u s, writeConversionOutput env input (start output) = .ok u s →
      output = none ∧ input.Published s ∧ (env.faults .unlink = none → s.file = none)) ∧
    ∀ e s, writeConversionOutput env input (start output) = .error e s →
      (s.output = output ∨ CleanupRaises env ∧ output = none ∧ input.Published s) ∧
        (env.faults .unlink = none → s.file = none) := by
  have hrun : Meets (fun s => s = start output) (writeConversionOutput env input)
      (fun _ s => output = none ∧ input.SizesVerified ∧
        Cleaned env (some (.regular input.completeFile)) s)
      (fun _ s => Cleaned env output s ∨ CleanupRaises env ∧ output = none ∧
        input.SizesVerified ∧ Cleaned env (some (.regular input.completeFile)) s) := by
    have hstart (s : Conversion) (hs : s = start output) : Cleaned env output s := by
      subst hs
      exact ⟨rfl, fun _ => rfl⟩
    refine ((validateTensorPlanRow4Layout_meets _ _).weaken (fun s hs => hs) (fun _ s hs => hs)
      fun _ s hs => .inl (hstart s hs)).seq ?_
    refine (raising_meets _ fun _ _ s _ hs => .inl (hstart s hs)).seq ?_
    refine (refuseExisting_meets.weaken (fun s hs => hs) (fun _ s hs => hs)
      fun _ s hs => .inl (hstart s hs)).seq ?_
    rintro s ⟨rfl, hs⟩
    exact (conversion_meets.weaken (fun s hs => hs) (fun _ s hs => ⟨rfl, hs⟩)
      fun _ s hs => hs.imp_right fun h => ⟨h.1, rfl, h.2⟩) s hs
  obtain ⟨hok, herror⟩ := hrun _ rfl
  refine ⟨fun u s hu => ?_, fun e s he => ?_⟩
  · obtain ⟨hnone, hsizes, hs⟩ := hok u s hu
    exact ⟨hnone, ⟨hs.1, hsizes⟩, hs.2⟩
  · obtain hs | ⟨hraises, hnone, hsizes, hs⟩ := herror e s he
    · exact ⟨.inl hs.1, hs.2⟩
    · exact ⟨.inr ⟨hraises, hnone, hs.1, hsizes⟩, hs.2⟩

/-- The claim: whatever raises, the output path is as it was and no private file is left. -/
def FailureLeavesNothing (env : Environment) (input : ConversionInput)
    (output : Option OutputNode) : Prop :=
  ∀ e s, writeConversionOutput env input (start output) = .error e s →
    s.output = output ∧ s.file = none

/-- A plan without tensors whose header cannot be written, in a directory from which nothing can be
unlinked: the private file is left behind. -/
theorem not_failureLeavesNothing :
    ¬ FailureLeavesNothing
      ⟨fun c => if c = .flushHeader ∨ c = .unlink then some (.osError, 0) else none, (1, 2), 3⟩
      ⟨"v1", [], [], [], []⟩ none := by
  intro h
  have hfile := (h .osError _ rfl).2
  cases hfile

end IFairy

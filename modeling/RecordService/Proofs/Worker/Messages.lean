import RecordService.Json.Printer
import RecordService.Proofs.Json.Keyed
import RecordService.Proofs.Worker.Frames
import RecordService.Proofs.Worker.Protocol

/-! # Messages on a link

What is read from the document of a message is the message, except that the result `null` of a call arrives as none,
which a worker does not tell apart (`HostMessage.ofJson?_toJson`, `Worker.receive_arrived`). So a worker at the end of a
stream of frames does what it would do if it were given the messages themselves (`Worker.serve_stream`). -/

namespace RecordService

/-! ### Fields -/

namespace Json

theorem countBelow?_int {n bound : Nat} (h : n < bound) : countBelow? bound (.int n) = some n := by
  simp [countBelow?, Json.int, Number.toCount?, h]

@[simp] theorem word16?_int (n : UInt16) : word16? (.int n.toNat) = some n := by
  simp [word16?, countBelow?_int n.toNat_lt_size]

@[simp] theorem word32?_int (n : UInt32) : word32? (.int n.toNat) = some n := by
  simp [word32?, countBelow?_int n.toNat_lt_size]

@[simp] theorem word64?_ofWord64 (n : UInt64) : word64? (ofWord64 n) = some n := by
  simp [word64?, ofWord64, countBelow?_int n.toNat_lt_size]

@[simp] theorem text?_str (s : String) : text? (.str s) = some s := rfl

@[simp] theorem optional?_null {α : Type} (read : Json → Option α) : optional? read .null = some none := rfl

@[simp] theorem optional?_str {α : Type} (read : Json → Option α) (s : String) :
    optional? read (.str s) = (read (.str s)).map some := rfl

@[simp] theorem optional?_int {α : Type} (read : Json → Option α) (i : Int) :
    optional? read (.int i) = (read (.int i)).map some := rfl

@[simp] theorem optional?_obj {α : Type} (read : Json → Option α) (entries : Entries) :
    optional? read (.obj entries) = (read (.obj entries)).map some := rfl

@[simp] theorem optional?_ofText? (s : Option String) : optional? text? (ofText? s) = some s := by
  cases s <;> rfl

theorem list?_arr {α : Type} {read : Json → Option α} {write : α → Json} {items : List α}
    (h : ∀ a ∈ items, read (write a) = some a) : list? read (.arr (items.map write)) = some items := by
  show (items.map write).mapM read = some items
  induction items with
  | nil => rfl
  | cons a rest ih =>
    rw [List.map_cons, List.mapM_cons, h a List.mem_cons_self, ih fun b hb => h b (List.mem_cons_of_mem a hb)]
    rfl

@[simp] theorem list?_ofTexts (texts : List String) : list? text? (ofTexts texts) = some texts :=
  list?_arr fun _ _ => rfl

theorem Keyed.document? {d : Json} (h : d.Keyed) : Json.document? d = some d :=
  congrArg some h.settle

theorem list?_document? {items : List Json} (h : ∀ d ∈ items, d.Keyed) : list? document? (.arr items) = some items := by
  have hread : list? document? (.arr (items.map id)) = some items := list?_arr fun d hd => (h d hd).document?
  rwa [List.map_id] at hread

theorem tagged?_withTag {tag : String} {members : Entries} (h : ∀ e ∈ members, e.1 ≠ "type") :
    tagged? (withTag tag members) = some (tag, .obj members) := by
  have hnone : members.filter (·.1 == "type") = [] := List.filter_eq_nil_iff.mpr fun e he => by simpa using h e he
  have hall : members.filter (·.1 != "type") = members := List.filter_eq_self.mpr fun e he => by simpa using h e he
  simp [tagged?, withTag, hnone, hall]

end Json

theorem CallError.ofJson?_toJson (e : CallError) : ofJson? e.toJson = some e := by
  obtain ⟨message, status⟩ := e
  cases status <;>
    simp [ofJson?, toJson, Json.member?, Json.members?, Entries.occurrences, Json.field?, Json.fieldOr?, Entries.get?]

@[simp] theorem CallError.optional?_toJson (e : CallError) : Json.optional? ofJson? e.toJson = some (some e) := by
  rw [toJson, Json.optional?_obj, ← toJson, ofJson?_toJson, Option.map_some]

theorem SandboxLimits.ofJson?_toJson (l : SandboxLimits) : ofJson? l.toJson = some l := by
  simp [ofJson?, toJson, names, Json.members?, Entries.occurrences, Json.fieldOr?, Entries.get?]

/-- The documents in a context. -/
def ScriptContext.documents (c : ScriptContext) : List Json :=
  [c.args, c.body, c.query, c.params, c.user]

theorem ScriptContext.ofJson?_toJson {c : ScriptContext} (h : ∀ d ∈ c.documents, d.Keyed) :
    ofJson? c.toJson = some c := by
  simp only [documents, List.forall_mem_cons] at h
  obtain ⟨hargs, hbody, hquery, hparams, huser, -⟩ := h
  simp [ofJson?, toJson, Json.members?, Entries.occurrences, Json.fieldOr?, Entries.get?, hargs.document?,
    hbody.document?, hquery.document?, hparams.document?, huser.document?]

/-! ### Messages -/

namespace HostMessage

variable {σ : Type} {script : σ → Json} {script? : Json → Option σ}

/-- The documents in a message, its script apart. -/
def documents : HostMessage σ → List Json
  | execute _ _ context _ => context.documents
  | callResult _ _ result _ => result.toList
  | shutdown => []

/-- The message as it arrives: a result `null` is none. -/
def arrived : HostMessage σ → HostMessage σ
  | callResult execution call (some .null) error => callResult execution call none error
  | m => m

/-- A document that arrives as a result. -/
theorem optional?_document? {d : Json} (h : d.Keyed) (execution call : UInt64) (error : Option CallError) :
    ((Json.optional? Json.document? d).bind fun result => some (callResult (σ := σ) execution call result error)) =
      some (arrived (.callResult execution call (some d) error)) := by
  cases d with
  | null => rfl
  | _ => exact congrArg (fun d => some (callResult execution call (some d) error)) h.settle

theorem callResultOfJson?_members (execution call : UInt64) {result : Option Json} (error : Option CallError)
    (h : ∀ d ∈ result.toList, d.Keyed) :
    callResultOfJson? (σ := σ) (.obj ([("executionId", Json.ofWord64 execution), ("callId", Json.ofWord64 call)] ++
      Json.member? "result" id result ++ Json.member? "error" CallError.toJson error)) =
      some (arrived (.callResult execution call result error)) := by
  cases result with
  | none =>
    cases error <;>
      simp [callResultOfJson?, Json.member?, Json.members?, Entries.occurrences, Json.field?, Json.fieldOr?,
        Entries.get?, arrived]
  | some d =>
    rw [← optional?_document? (h d (List.mem_singleton_self d))]
    cases error <;>
      simp [callResultOfJson?, Json.member?, Json.members?, Entries.occurrences, Json.field?, Json.fieldOr?,
        Entries.get?]

theorem ofJson?_toJson (hscript : ∀ s, script? (script s) = some s) {m : HostMessage σ}
    (h : ∀ d ∈ m.documents, d.Keyed) : ofJson? script? (m.toJson script) = some m.arrived := by
  cases m with
  | execute execution s context limits =>
    have hmembers : executeOfJson? script? (.obj [("executionId", Json.ofWord64 execution), ("script", script s),
        ("context", context.toJson), ("limits", limits.toJson)]) = some (.execute execution s context limits) := by
      simp [executeOfJson?, Json.members?, Entries.occurrences, Json.field?, Entries.get?, hscript,
        ScriptContext.ofJson?_toJson h, SandboxLimits.ofJson?_toJson]
    rw [toJson, ofJson?, Json.tagged?_withTag (by simp)]
    exact hmembers
  | callResult execution call result error =>
    rw [toJson, ofJson?, Json.tagged?_withTag (by cases result <;> cases error <;> simp [Json.member?])]
    exact callResultOfJson?_members execution call error h
  | shutdown => rfl

/-- Messages with one encoding arrive alike. -/
theorem arrived_eq_of_toJson_eq (hscript : ∀ s, script? (script s) = some s) {m m' : HostMessage σ}
    (h : ∀ d ∈ m.documents, d.Keyed) (h' : ∀ d ∈ m'.documents, d.Keyed) (heq : m.toJson script = m'.toJson script) :
    m.arrived = m'.arrived := by
  have hread := ofJson?_toJson hscript h
  rw [heq, ofJson?_toJson hscript h'] at hread
  exact (Option.some.inj hread).symm

end HostMessage

namespace WorkerMessage

/-- The documents in a message. -/
def documents : WorkerMessage → List Json
  | call _ _ _ args => args
  | done _ data => [data]
  | ready _ | error _ _ _ _ => []

theorem ofJson?_toJson {m : WorkerMessage} (h : ∀ d ∈ m.documents, d.Keyed) : ofJson? m.toJson = some m := by
  cases m with
  | ready process =>
    rw [toJson, ofJson?, Json.tagged?_withTag (by simp)]
    simp [readyOfJson?, Json.members?, Entries.occurrences, Json.field?, Entries.get?]
  | call execution id path args =>
    have hargs : Json.list? Json.document? (.arr args) = some args := Json.list?_document? h
    rw [toJson, ofJson?, Json.tagged?_withTag (by simp)]
    simp [callOfJson?, Json.members?, Entries.occurrences, Json.field?, Entries.get?, hargs]
  | done execution data =>
    rw [toJson, ofJson?, Json.tagged?_withTag (by simp)]
    simp [doneOfJson?, Json.members?, Entries.occurrences, Json.field?, Entries.get?,
      (h data (List.mem_singleton_self data)).document?]
  | error execution message stack status =>
    rw [toJson, ofJson?, Json.tagged?_withTag (by cases stack <;> cases status <;> simp [Json.member?])]
    cases stack <;> cases status <;>
      simp [errorOfJson?, Json.member?, Json.members?, Entries.occurrences, Json.field?, Json.fieldOr?, Entries.get?]

theorem eq_of_toJson_eq {m m' : WorkerMessage} (h : ∀ d ∈ m.documents, d.Keyed) (h' : ∀ d ∈ m'.documents, d.Keyed)
    (heq : m.toJson = m'.toJson) : m = m' := by
  have hread := ofJson?_toJson h
  rw [heq, ofJson?_toJson h'] at hread
  exact (Option.some.inj hread).symm

end WorkerMessage

/-! ### Workers -/

namespace Worker

variable {σ : Type} (evaluate : Interpreter σ)

theorem receive_arrived (w : Worker) (m : HostMessage σ) : w.receive evaluate m.arrived = w.receive evaluate m := by
  unfold HostMessage.arrived
  split
  · cases w <;> rfl
  · rfl

theorem serveFrom_arrived (w : Worker) (room : Option Nat) (messages : List (HostMessage σ)) :
    w.serveFrom evaluate room (messages.map fun m => .ok m.arrived) =
      w.serveFrom evaluate room (messages.map .ok) := by
  induction messages generalizing w room with
  | nil => rfl
  | cons m rest ih =>
    simp only [List.map_cons, serveFrom, receive_arrived, ih]

theorem serve_arrived (process : UInt32) (room : Option Nat) (messages : List (HostMessage σ)) :
    serve evaluate process room (messages.map fun m => .ok m.arrived) =
      serve evaluate process room (messages.map .ok) := by
  rw [serve, serve, serveFrom_arrived]

end Worker

/-! ### Payloads -/

namespace Json

/-- The payload of a document: its text, in bytes. -/
def payload (d : Json) : List UInt8 :=
  d.compact.toUTF8.data.toList

/-- The document in a payload. -/
def ofPayload? (payload : List UInt8) : Option Json :=
  (String.fromUTF8? ⟨payload.toArray⟩).bind readRaw?

/-- The text of the document is read as the document. -/
def ReadsBack (d : Json) : Prop :=
  readRaw? d.compact = some d

theorem ofPayload?_payload {d : Json} (h : d.ReadsBack) : ofPayload? d.payload = some d := by
  have hbytes : (⟨d.payload.toArray⟩ : ByteArray) = d.compact.toUTF8 := rfl
  have htext : String.fromUTF8? d.compact.toUTF8 = some d.compact :=
    dif_pos d.compact.isValidUTF8
  rw [ofPayload?, hbytes, htext]
  exact h

/-- The document goes over a link in one frame, and is read there as it was written. -/
def Passes (d : Json) : Prop :=
  d.ReadsBack ∧ d.payload.length ≤ Frame.bound

end Json

/-! ### Streams -/

section
variable {σ : Type} {script : σ → Json} {script? : Json → Option σ}

theorem Inbound.ofPayload_payload (hscript : ∀ s, script? (script s) = some s) {m : HostMessage σ}
    (h : ∀ d ∈ m.documents, d.Keyed) (hreads : (m.toJson script).ReadsBack) :
    ofPayload script? (m.toJson script).payload = .ok m.arrived := by
  have hread : ((Json.ofPayload? (m.toJson script).payload).bind (HostMessage.ofJson? script?)).elim
      (.error .invalid) .ok = Except.ok (ε := LinkFault) m.arrived := by
    rw [Json.ofPayload?_payload hreads, Option.bind_some, HostMessage.ofJson?_toJson hscript h]
    rfl
  rwa [Json.ofPayload?, Option.bind_assoc] at hread

/-- The messages that a stream of frames brings. -/
theorem Inbound.ofBytes_stream (hscript : ∀ s, script? (script s) = some s) {messages : List (HostMessage σ)}
    (h : ∀ m ∈ messages, (∀ d ∈ m.documents, d.Keyed) ∧ (m.toJson script).Passes) :
    ofBytes script? (Frame.stream (messages.map fun m => (m.toJson script).payload)) =
      messages.map fun m => .ok m.arrived := by
  have hfit : Frame.Fit (messages.map fun m => (m.toJson script).payload) :=
    List.forall_mem_map.mpr fun m hm => (h m hm).2.2
  rw [ofBytes, Frame.readAll_stream hfit]
  simp only [Option.map_none, Option.toList_none, List.append_nil, List.map_map]
  exact List.map_congr_left fun m hm => ofPayload_payload hscript (h m hm).1 (h m hm).2.1

/-- The worker's messages in a stream of frames, and the fault that ends it. -/
def WorkerMessage.ofBytes (bytes : List UInt8) : List (Option WorkerMessage) × Option Frame.Fault :=
  ((Frame.readAll bytes).1.map fun payload => (Json.ofPayload? payload).bind ofJson?, (Frame.readAll bytes).2)

theorem WorkerMessage.ofBytes_stream {messages : List WorkerMessage}
    (h : ∀ m ∈ messages, (∀ d ∈ m.documents, d.Keyed) ∧ m.toJson.Passes) :
    ofBytes (Frame.stream (messages.map fun m => m.toJson.payload)) = (messages.map some, none) := by
  have hfit : Frame.Fit (messages.map fun m => m.toJson.payload) :=
    List.forall_mem_map.mpr fun m hm => (h m hm).2.2
  rw [ofBytes, Frame.readAll_stream hfit, List.map_map]
  refine Prod.ext (List.map_congr_left fun m hm => ?_) rfl
  obtain ⟨hkeyed, hreads, -⟩ := h m hm
  rw [Function.comp_apply, Json.ofPayload?_payload hreads, Option.bind_some, ofJson?_toJson hkeyed]

/-- Every message is read from its document, a result `null` as none, which no worker tells apart. So messages have one
document only if they are the same but for that; and where the text of each document is read as the document, frames
bring a worker what a channel would bring it, and bring the host what the worker sends. -/
theorem messages_delivered (hscript : ∀ s, script? (script s) = some s) :
    (∀ m : HostMessage σ, (∀ d ∈ m.documents, d.Keyed) →
      HostMessage.ofJson? script? (m.toJson script) = some m.arrived ∧
      ∀ m' : HostMessage σ, (∀ d ∈ m'.documents, d.Keyed) → m.toJson script = m'.toJson script →
        m.arrived = m'.arrived) ∧
    (∀ m : WorkerMessage, (∀ d ∈ m.documents, d.Keyed) →
      WorkerMessage.ofJson? m.toJson = some m ∧
      ∀ m' : WorkerMessage, (∀ d ∈ m'.documents, d.Keyed) → m.toJson = m'.toJson → m = m') ∧
    (∀ (evaluate : Interpreter σ) (w : Worker) (m : HostMessage σ),
      w.receive evaluate m.arrived = w.receive evaluate m) ∧
    (∀ messages : List (HostMessage σ),
      (∀ m ∈ messages, (∀ d ∈ m.documents, d.Keyed) ∧ (m.toJson script).Passes) →
      ∀ (evaluate : Interpreter σ) process room,
        Worker.serve evaluate process room
            (Inbound.ofBytes script? (Frame.stream (messages.map fun m => (m.toJson script).payload))) =
          Worker.serve evaluate process room (messages.map .ok)) ∧
    ∀ messages : List WorkerMessage, (∀ m ∈ messages, (∀ d ∈ m.documents, d.Keyed) ∧ m.toJson.Passes) →
      WorkerMessage.ofBytes (Frame.stream (messages.map fun m => m.toJson.payload)) = (messages.map some, none) := by
  refine ⟨fun m h => ⟨HostMessage.ofJson?_toJson hscript h, fun m' h' => HostMessage.arrived_eq_of_toJson_eq hscript h h'⟩,
    fun m h => ⟨WorkerMessage.ofJson?_toJson h, fun m' h' => WorkerMessage.eq_of_toJson_eq h h'⟩,
    fun evaluate w m => w.receive_arrived evaluate m, fun messages h evaluate process room => ?_,
    fun messages h => WorkerMessage.ofBytes_stream h⟩
  rw [Inbound.ofBytes_stream hscript h, Worker.serve_arrived]

end

/-! ### A call -/

/-- A script is to be executed with arguments that have a member `type`. -/
def HostMessage.order : HostMessage String :=
  .execute 7 "echo" { ScriptContext.empty with args := .obj [("type", .arr [.null]), ("n", .int 2)] } .standard

theorem HostMessage.keyed_order : ∀ d ∈ order.documents, d.Keyed := by
  have hargs : Json.Keyed (.obj [("type", .arr [.null]), ("n", .int 2)]) := by
    refine .obj (by decide) ?_
    simp only [List.forall_mem_cons]
    exact ⟨.arr fun d hd => List.mem_singleton.mp hd ▸ .null, .num _, nofun⟩
  simp only [order, documents, ScriptContext.documents, ScriptContext.empty, List.forall_mem_cons]
  exact ⟨hargs, .null, .null, .null, .null, nofun⟩

/-- The script makes a call. -/
def WorkerMessage.echo : WorkerMessage :=
  .call 7 1 "helpers.echo" [.bool true]

theorem WorkerMessage.keyed_echo : ∀ d ∈ echo.documents, d.Keyed :=
  List.forall_mem_singleton.mpr (.bool true)

theorem WorkerMessage.passes_echo : echo.toJson.Passes := by
  refine ⟨?_, by decide +kernel⟩
  unfold Json.ReadsBack
  rfl

/-- Its result is `null`. -/
def HostMessage.nothing : HostMessage String :=
  .callResult 7 1 (some .null) none

theorem HostMessage.keyed_nothing : ∀ d ∈ nothing.documents, d.Keyed :=
  List.forall_mem_singleton.mpr .null

theorem HostMessage.passes_nothing : (nothing.toJson .str).Passes := by
  refine ⟨?_, by decide +kernel⟩
  unfold Json.ReadsBack
  rfl

/-- The messages of a call are delivered over a link, and the order to execute its script is read as it was written. -/
theorem messages_delivered_call :
    HostMessage.ofJson? Json.text? (HostMessage.order.toJson .str) = some HostMessage.order ∧
    WorkerMessage.ofJson? WorkerMessage.echo.toJson = some WorkerMessage.echo ∧
    (∀ (evaluate : Interpreter String) process room,
      Worker.serve evaluate process room
          (Inbound.ofBytes Json.text? (Frame.stream [(HostMessage.nothing.toJson .str).payload])) =
        Worker.serve evaluate process room [.ok HostMessage.nothing]) ∧
    WorkerMessage.ofBytes (Frame.stream [WorkerMessage.echo.toJson.payload]) = ([some WorkerMessage.echo], none) := by
  have hscripts (s : String) : Json.text? (.str s) = some s := rfl
  obtain ⟨hhost, hworker, -, hserve, hsent⟩ := messages_delivered hscripts
  exact ⟨(hhost _ HostMessage.keyed_order).1, (hworker _ WorkerMessage.keyed_echo).1,
    hserve [HostMessage.nothing] (List.forall_mem_singleton.mpr ⟨HostMessage.keyed_nothing, HostMessage.passes_nothing⟩),
    hsent [WorkerMessage.echo] (List.forall_mem_singleton.mpr ⟨WorkerMessage.keyed_echo, WorkerMessage.passes_echo⟩)⟩

end RecordService

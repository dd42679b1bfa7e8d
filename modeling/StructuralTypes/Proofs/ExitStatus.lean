import StructuralTypes.Proofs.Caution
import StructuralTypes.Proofs.Compilable
import StructuralTypes.Proofs.TextAliases
import StructuralTypes.Yaml.Value

/-! The exit code of a command. Overrides, settings, documents, annotations and values that
cannot be read are complaints, and so is a number that cannot be written; a verdict that
refuses is printed or complained of. So the exit code is as promised, except where an alias
has no name, which is no complaint but a fault, and where a number that cannot be written
stands between a value and its acceptance. -/

namespace StructuralTypes

open Outcome

theorem Outcome.Ends.mapError {ε ε' α : Type} {bad : ε → Prop} {bad' : ε' → Prop}
    {good : α → Prop} {x : Except ε α} {view : ε → ε'} (h : Ends bad good x)
    (hview : ∀ e, bad e → bad' (view e)) : Ends bad' good (x.mapError view) := by
  cases x with
  | ok a => exact h
  | error e => exact hview e h

/-! ### Overrides and settings -/

/-- What a loader raises. -/
def Document.Fault.IsRaised : Document.Fault → Prop
  | .raised _ => True
  | _ => False

theorem Document.Settled.not_isRaised {load : Document.Loader} {text : String}
    (h : Document.Settled load text) {f : Document.Fault} (hf : load text = .error f) :
    ¬f.IsRaised := by
  cases f with
  | raised r => exact fun _ => h r hf
  | _ => exact id

/-- Nothing that a loader raises. -/
def Override.Fault.IsTold : Override.Fault → Prop
  | .document f => ¬f.IsRaised
  | _ => True

/-- Nothing that a loader raises. -/
def Settings.Fault.IsTold : Settings.Fault → Prop
  | .document f => ¬f.IsRaised
  | _ => True

namespace Override

variable {load : Document.Loader}

theorem ends_scalar {text : String} (h : Document.Settled load text) :
    Ends Fault.IsTold (fun _ => True) (scalar load text) := by
  rw [scalar]
  split
  · trivial
  · trivial
  · trivial
  · trivial
  · trivial
  · rename_i hf
    exact h.not_isRaised hf

theorem ends_read (item : String) : Ends Fault.IsTold
    (fun i => CommandLine.overrideText? item = some i.text) (Item.read item) := by
  rw [Item.read, CommandLine.overrideText?]
  cases Split.cut? '=' item.toList with
  | none => trivial
  | some p =>
    dsimp only
    split
    · trivial
    · rfl

theorem ends_add {item : String}
    (h : ∀ text ∈ CommandLine.overrideText? item, Document.Settled load text)
    (t : Table Override) : Ends Fault.IsTold (fun _ => True) (add (scalar load) t item) := by
  refine (ends_read item).bind fun i hi => (ends_scalar (h i.text hi)).bind fun v _ => ?_
  cases assign v i.names t with
  | none => trivial
  | some members => trivial

theorem ends_gather {items : List String}
    (h : ∀ text ∈ items.filterMap CommandLine.overrideText?, Document.Settled load text) :
    Ends Fault.IsTold (fun _ => True) (gather (scalar load) items) := by
  rw [gather]
  generalize ([] : Table Override) = t
  induction items generalizing t with
  | nil => trivial
  | cons item rest ih =>
    rw [List.foldlM_cons]
    have hitem : ∀ text ∈ CommandLine.overrideText? item, Document.Settled load text :=
      fun text ht => h text (List.mem_filterMap.2 ⟨item, List.mem_cons_self, ht⟩)
    refine (ends_add hitem t).bind fun t _ => ih (fun text ht => ?_) t
    obtain ⟨other, ho, hother⟩ := List.mem_filterMap.1 ht
    exact h text (List.mem_filterMap.2 ⟨other, List.mem_cons_of_mem _ ho, hother⟩)

theorem ends_entries {items : List String}
    (h : ∀ text ∈ items.filterMap CommandLine.overrideText?, Document.Settled load text) :
    Ends Fault.IsTold (fun _ => True) (entries load items) :=
  (ends_gather h).bind fun _ _ => trivial

end Override

namespace Settings

theorem ends_aliasTable (stored : Table String) (items : List (Value × Value)) :
    Ends Fault.IsTold (fun _ => True) (aliasTable stored items) := by
  induction items generalizing stored with
  | nil => trivial
  | cons p rest ih =>
    rw [aliasTable]
    split
    · trivial
    · split
      · exact ih _
      · trivial

theorem ends_flag (entries : List (Value × Value)) (key : String) :
    Ends Fault.IsTold (fun _ => True) (flag entries key) := by
  unfold flag
  split
  · trivial
  · trivial
  · split
    · trivial
    · trivial

theorem ends_ofEntries (entries : List (Value × Value)) :
    Ends Fault.IsTold (fun _ => True) (ofEntries entries) := by
  have haliases : Ends Fault.IsTold (fun _ => True) (aliasesOf entries) := by
    unfold aliasesOf
    split
    · trivial
    · trivial
    · exact ends_aliasTable [] _
    · trivial
  exact haliases.bind fun _ _ => (ends_flag entries _).bind fun _ _ =>
    (ends_flag entries _).bind fun _ _ => trivial

theorem ends_readEntries {load : Document.Loader} {text : String}
    (h : Document.Settled load text) :
    Ends Fault.IsTold (fun _ => True) (readEntries load text) := by
  rw [readEntries]
  split
  · trivial
  · trivial
  · trivial
  · rename_i hf
    exact h.not_isRaised hf

end Settings

namespace CommandLine

variable {env : Surroundings} {i : Invocation} {args : List String} {settings : Settings}
  {source : String} {v : Value}

/-- What is reported to the user. -/
def Stop.IsComplaint (s : Stop) : Prop :=
  ∃ c, s = .complaint c

theorem isComplaint_ofDocument (complain : Document.Fault → Complaint) {f : Document.Fault}
    (h : ¬f.IsRaised) : (Stop.ofDocument complain f).IsComplaint := by
  cases f with
  | raised r => exact absurd trivial h
  | _ => exact ⟨_, rfl⟩

theorem isComplaint_ofSettings (f : Settings.Fault) (h : f.IsTold) :
    (Stop.ofSettings f).IsComplaint := by
  cases f with
  | document f => exact isComplaint_ofDocument (fun f => .settings (.document f)) h
  | _ => exact ⟨_, rfl⟩

theorem isComplaint_ofOverride (f : Override.Fault) (h : f.IsTold) :
    (Stop.ofOverride f).IsComplaint := by
  cases f with
  | document f => exact isComplaint_ofDocument (fun f => .override (.document f)) h
  | _ => exact ⟨_, rfl⟩

theorem isComplaint_ofFault {f : Fault} (h : f.IsReported) : (Stop.ofFault f).IsComplaint := by
  cases f with
  | type f => exact ⟨_, rfl⟩
  | overlong e => exact ⟨_, rfl⟩
  | _ => exact h.elim

/-- Settings that cannot be read are complained of. -/
theorem ends_readSettings (h : ∀ text ∈ i.documents env, Document.Settled env.load text) :
    Ends Stop.IsComplaint (fun _ => True) (readSettings env i.config i.overrides) := by
  have hentries := Override.ends_entries fun text ht =>
    h text (List.mem_append_left _ (List.mem_append_left _ ht))
  have hconfig : Ends Stop.IsComplaint (fun _ => True) (configEntries env i.config) := by
    have hsound : ∀ text ∈ configText? env i.config, Document.Settled env.load text :=
      fun text ht => h text (List.mem_append_left _ (List.mem_append_right _ (Option.mem_toList.2 ht)))
    unfold configText? at hsound
    unfold configEntries
    cases hname : settingsFile? env i.config with
    | none => trivial
    | some name =>
      rw [hname, Option.bind_some] at hsound
      dsimp only
      split
      · rename_i text htext
        have htext' : (env.files (tidyName name)).toOption = some text := by
          rw [htext]
          rfl
        exact (Settings.ends_readEntries (hsound text htext')).mapError isComplaint_ofSettings
      · exact ⟨_, rfl⟩
      · exact ⟨_, rfl⟩
  refine (hentries.mapError isComplaint_ofOverride).bind fun entries _ => hconfig.bind
    fun base _ => ?_
  refine Ends.mapError (Ends.bind (Settings.ends_ofEntries base) fun s _ => ?_)
    isComplaint_ofSettings
  unfold Settings.merge
  split
  · trivial
  · exact Settings.ends_ofEntries _

/-- A value that cannot be read is complained of. -/
theorem ends_readValue {given : Source} {json : Bool} (hi : i.command = .check source given json)
    (h : ∀ text ∈ i.documents env, Document.Settled env.load text) :
    Ends Stop.IsComplaint (fun _ => True) (readValue env given) := by
  have hsound : ∀ text ∈ (documentText env.files given).toOption, Document.Settled env.load text := by
    intro text ht
    refine h text (List.mem_append_right _ (Option.mem_toList.2 ?_))
    rw [hi]
    exact ht
  unfold readValue
  cases hdoc : documentText env.files given with
  | error stop =>
    unfold documentText at hdoc
    cases given with
    | text document => cases hdoc
    | file name =>
      dsimp only at hdoc
      rcases hfile : env.files (tidyName name) with f | text <;> rw [hfile] at hdoc <;> cases hdoc
      exact ⟨_, rfl⟩
  | ok text =>
    have htext : Document.Settled env.load text := hsound text (by rw [hdoc]; rfl)
    rw [bind_of_ok rfl]
    cases hload : env.load text with
    | ok v => trivial
    | error f => exact isComplaint_ofDocument _ (htext.not_isRaised hload)

/-! ### Printing -/

theorem sequential_ok : Node.Sequential fun α (x : Except Fault α) => ∃ a, x = .ok a where
  pure a := ⟨a, rfl⟩
  bind hx hf := by
    obtain ⟨a, rfl⟩ := hx
    exact hf a

/-- What is read as a type can be printed. -/
theorem hasText_of_canonical {n : Node} (h : n.Canonical) : n.HasText := by
  obtain ⟨w, hw⟩ := sequential_ok.compile
    (fun _ => ⟨.predicate Keyword.existential.predicate, rfl⟩) (h.1.mono (by omega))
  exact Node.resulting_except.induction (fun {name w} (_ : _ = Except.ok w) => ⟨name, rfl⟩)
    Node.Assembled.hasText hw

theorem printNode_good {n : Node} (h : n.Canonical) (json : Bool) :
    ∃ lines, printNode json n = .ok { good := true, lines } := by
  unfold printNode
  cases json with
  | true => exact ⟨_, rfl⟩
  | false =>
    obtain ⟨text, ht⟩ := hasText_of_canonical h
    exact ⟨_, by rw [ht]; rfl⟩

/-- Whether a result is as promised, given whether the command succeeds. -/
def Fulfils (result : Except Stop Printed) (success : Prop) : Prop :=
  match result with
  | .ok p => p.good = true ↔ success
  | .error (.complaint _) => ¬success
  | .error (.fault _) => False

theorem Fulfils.congr {result : Except Stop Printed} {success success' : Prop}
    (h : Fulfils result success) (hs : success ↔ success') : Fulfils result success' :=
  propext hs ▸ h

/-- A verdict that accepts is printed; one that refuses may be complained of. -/
theorem fulfils_printVerdict {short : Prop} {verdict : Verdict} (h : verdict.Fits short)
    (source : String) (json : Bool) :
    Fulfils (printVerdict source json verdict) (verdict.ok = true) := by
  obtain ⟨r, rfl, -⟩ := h
  cases r with
  | none =>
    cases json with
    | true => exact Iff.rfl
    | false => exact Iff.rfl
  | some f =>
    unfold printVerdict
    cases json with
    | true =>
      change Fulfils (do
        let report ← (Report.build (some source) (some f)).mapError fun f => Stop.complaint (.type f)
        return { good := false, lines := [report.toJson.render (Json.indented true)] }) _
      cases Report.build (some source) (some f) with
      | error f => exact nofun
      | ok report => exact Iff.rfl
    | false =>
      change Fulfils (do
        let messages ← f.messageList.mapError fun f => Stop.complaint (.type f)
        return { good := false, lines := messages.map tagged }) _
      cases f.messageList with
      | error f => exact nofun
      | ok messages => exact Iff.rfl

/-! ### Commands -/

/-- A check reads one value under one table of settings. -/
theorem Invocation.Checks.eq {settings' : Settings} {source' : String} {v' : Value}
    (h : i.Checks env settings source v) (h' : i.Checks env settings' source' v') :
    settings = settings' ∧ source = source' ∧ v = v' := by
  obtain ⟨hs, given, json, hc, hv⟩ := h
  obtain ⟨hs', given', json', hc', hv'⟩ := h'
  cases hs.symm.trans hs'
  cases hc.symm.trans hc'
  cases hv.symm.trans hv'
  exact ⟨rfl, rfl, rfl⟩

/-- Among checks, success is acceptance of the value. -/
theorem succeeds_iff (h : i.Checks env settings source v) : i.Succeeds env
    ↔ ∃ w verdict, (settings.validatorFor (.text source)).1 = .ok w
      ∧ w.evaluate v = .ok verdict ∧ verdict.ok = true := by
  obtain ⟨-, given, json, hcommand, -⟩ := id h
  rw [Invocation.Succeeds, hcommand]
  constructor
  · rintro ⟨settings', source', v', w, verdict, h', hw, he, hok⟩
    obtain ⟨rfl, rfl, rfl⟩ := h.eq h'
    exact ⟨w, verdict, hw, he, hok⟩
  · rintro ⟨w, verdict, hw, he, hok⟩
    exact ⟨settings, source, v, w, verdict, h, hw, he, hok⟩

theorem hasEmptyAlias_iff (h : i.Checks env settings source v) :
    i.HasEmptyAlias env ↔ settings.forbidden? = some "" := by
  constructor
  · rintro ⟨settings', source', v', h', hempty⟩
    obtain ⟨rfl, -, -⟩ := h.eq h'
    exact hempty
  · exact fun hempty => ⟨settings, source, v, h, hempty⟩

theorem stopsAtNumber_iff (h : i.Checks env settings source v) : i.StopsAtNumber env
    ↔ ∃ w verdict, (settings.validatorFor (.text source)).1 = .ok w ∧ w.evaluate v = .ok verdict
      ∧ verdict.ok = true ∧ w.written v = .error (.overlong .written) := by
  constructor
  · rintro ⟨settings', source', v', w, verdict, h', hw, he, hok, hwritten⟩
    obtain ⟨rfl, rfl, rfl⟩ := h.eq h'
    exact ⟨w, verdict, hw, he, hok, hwritten⟩
  · rintro ⟨w, verdict, hw, he, hok, hwritten⟩
    exact ⟨settings, source, v, w, verdict, h, hw, he, hok, hwritten⟩

/-- What a check comes to, with what its exit code is to say. -/
theorem fulfils_checkValue_iff (h : i.Checks env settings source v) (json : Bool) :
    Fulfils (checkValue settings source json v).1 (i.Succeeds env)
      ↔ ¬i.HasEmptyAlias env ∧ ¬i.StopsAtNumber env := by
  rw [succeeds_iff h, hasEmptyAlias_iff h, stopsAtNumber_iff h]
  unfold checkValue
  obtain ⟨hempty, hfault⟩ | ⟨hnamed, hends⟩ := settings.validatorFor_text source
  · rcases hvalidator : settings.validatorFor (.text source) with ⟨x, warnings⟩
    rw [hvalidator] at hfault
    cases hfault
    exact ⟨False.elim, fun hnot => hnot.1 hempty⟩
  · rcases hvalidator : settings.validatorFor (.text source) with ⟨f | w, warnings⟩ <;>
      rw [hvalidator] at hends
    · obtain ⟨c, hc⟩ := isComplaint_ofFault hends
      dsimp only [Except.mapError]
      rw [bind_of_error rfl, hc]
      exact ⟨fun _ => ⟨hnamed, nofun⟩, fun _ => nofun⟩
    · have hwritten := Validator.Renders.written hends v
      dsimp only [Except.mapError]
      rw [bind_of_ok rfl]
      cases hw : w.written v with
      | error f =>
        rw [hw] at hwritten
        obtain ⟨rfl, -⟩ := hwritten
        constructor
        · intro hfails
          refine ⟨hnamed, fun ⟨w', verdict, hw', he, hok, _⟩ => hfails ⟨w', verdict, hw', he, hok⟩⟩
        · rintro ⟨-, hstops⟩ ⟨w', verdict, ⟨⟩, he, hok⟩
          exact hstops ⟨w, verdict, rfl, he, hok, hw⟩
      | ok verdict =>
        rw [hw] at hwritten
        have he := Validator.evaluate_of_written hw
        have hsuccess : verdict.ok = true ↔ ∃ w' verdict', (.ok w : Except Fault Validator) = .ok w'
            ∧ w'.evaluate v = .ok verdict' ∧ verdict'.ok = true := by
          constructor
          · exact fun hok => ⟨w, verdict, rfl, he, hok⟩
          · rintro ⟨w', verdict', ⟨⟩, he', hok⟩
            cases he.symm.trans he'
            exact hok
        refine ⟨fun _ => ⟨hnamed, ?_⟩, fun _ => ?_⟩
        · rintro ⟨w', verdict', ⟨⟩, -, -, hstops⟩
          cases hw.symm.trans hstops
        · exact (fulfils_printVerdict hwritten source json).congr hsuccess

/-- Whether an annotation is printed is whether it can be read. -/
theorem fulfils_parse (env : Surroundings) (settings : Settings) (source : String) (json : Bool) :
    Fulfils (perform env settings (.parse source json)).1 (∃ n, Node.parse? source = .ok n) := by
  have hresult : (perform env settings (.parse source json)).1
      = (Node.parse? source).mapError Stop.ofFault >>= printNode json := rfl
  rw [hresult]
  obtain ⟨n, hn, hcanonical⟩ | ⟨f, hf⟩ := Node.parse?_spec source
  · obtain ⟨lines, hlines⟩ := printNode_good hcanonical json
    rw [hn]
    change Fulfils (printNode json n) _
    rw [hlines]
    exact iff_of_true rfl ⟨n, rfl⟩
  · rw [hf]
    rintro ⟨n, ⟨⟩⟩

/-- A command that cannot read what it names does not succeed, and breaks no promise. -/
theorem fulfils_of_complaint {stop : Stop} (hstop : stop.IsComplaint) {success : Prop}
    (h : ¬success) : Fulfils (.error stop) success := by
  obtain ⟨c, rfl⟩ := hstop
  exact h

/-- The promise is about the result of the command. -/
theorem keepsPromise_iff_fulfils (h : Request.ofArguments args = .run i) :
    KeepsPromise env args i ↔ Fulfils (i.perform env).1 (i.Succeeds env) := by
  unfold KeepsPromise run
  rw [h]
  dsimp only
  rcases i.perform env with ⟨stop | p, warnings⟩
  · cases stop with
    | complaint c =>
      refine ⟨?_, fun hfails => ⟨_, rfl, .inr rfl, ⟨nofun, fun hs => absurd hs hfails⟩⟩⟩
      rintro ⟨o, ⟨⟩, -, hiff⟩ hs
      exact absurd (hiff.2 hs) nofun
    | fault f => exact ⟨fun ⟨o, ho, _⟩ => (by cases ho), False.elim⟩
  · obtain ⟨good, lines⟩ := p
    cases good with
    | true =>
      refine ⟨?_, fun hs => ⟨_, rfl, .inl rfl, ⟨fun _ => hs.1 rfl, fun _ => rfl⟩⟩⟩
      rintro ⟨o, ⟨⟩, -, hiff⟩
      exact ⟨fun _ => hiff.1 rfl, fun _ => rfl⟩
    | false =>
      refine ⟨?_, fun hs => ⟨_, rfl, .inr rfl, ⟨nofun, fun h' => absurd (hs.2 h') nofun⟩⟩⟩
      rintro ⟨o, ⟨⟩, -, hiff⟩
      exact ⟨nofun, fun hs => absurd (hiff.2 hs) nofun⟩

/-- Where nothing is checked, nothing stands in the way. -/
theorem unobstructed_of_not_checks (h : ∀ settings source v, ¬i.Checks env settings source v) :
    ¬i.HasEmptyAlias env ∧ ¬i.StopsAtNumber env := by
  refine ⟨?_, ?_⟩
  · rintro ⟨settings, source, v, hchecks, -⟩
    exact h settings source v hchecks
  · rintro ⟨settings, source, v, w, verdict, hchecks, -⟩
    exact h settings source v hchecks

/-- A command under settings that cannot be read does not succeed. -/
theorem not_succeeds_of_readSettings {stop : Stop}
    (h : readSettings env i.config i.overrides = .error stop) : ¬i.Succeeds env := by
  unfold Invocation.Succeeds
  split
  · rintro ⟨⟨settings, hs⟩, -⟩
    cases h.symm.trans hs
  · rintro ⟨settings, source, v, w, verdict, hchecks, -⟩
    cases h.symm.trans hchecks.settings

/-- A check of a value that cannot be read does not succeed. -/
theorem not_checks_of_readValue {given : Source} {json : Bool} {stop : Stop}
    (hcommand : i.command = .check source given json) (h : readValue env given = .error stop)
    (settings : Settings) (source' : String) (v : Value) :
    ¬i.Checks env settings source' v := by
  rintro ⟨-, given', json', hcommand', hv⟩
  cases hcommand.symm.trans hcommand'
  cases h.symm.trans hv

/-- What the command comes to, with what its exit code is to say. -/
theorem fulfils_perform_iff
    (hdocuments : ∀ text ∈ i.documents env, Document.Settled env.load text) :
    Fulfils (i.perform env).1 (i.Succeeds env)
      ↔ ¬i.HasEmptyAlias env ∧ ¬i.StopsAtNumber env := by
  have hsettings := ends_readSettings hdocuments
  cases hread : readSettings env i.config i.overrides with
  | error stop =>
    rw [hread] at hsettings
    rw [Invocation.perform, hread]
    refine iff_of_true (fulfils_of_complaint hsettings (not_succeeds_of_readSettings hread))
      (unobstructed_of_not_checks fun settings source v hchecks => ?_)
    cases hread.symm.trans hchecks.settings
  | ok settings =>
    rw [Invocation.perform, hread]
    dsimp only
    cases hcommand : i.command with
    | parse source json =>
      have hsuccess : (∃ n, Node.parse? source = .ok n) ↔ i.Succeeds env := by
        rw [Invocation.Succeeds, hcommand]
        exact (and_iff_right ⟨settings, hread⟩).symm
      refine iff_of_true ((fulfils_parse env settings source json).congr hsuccess)
        (unobstructed_of_not_checks ?_)
      rintro settings' source' v ⟨-, given, json', hcommand', -⟩
      cases hcommand.symm.trans hcommand'
    | check source given json =>
      have hvalue := ends_readValue hcommand hdocuments
      rw [perform]
      cases hv : readValue env given with
      | error stop =>
        rw [hv] at hvalue
        have hnone := not_checks_of_readValue hcommand hv
        have hfails : ¬i.Succeeds env := by
          rw [Invocation.Succeeds, hcommand]
          rintro ⟨settings', source', v, w, verdict, hchecks, -⟩
          exact hnone settings' source' v hchecks
        exact iff_of_true (fulfils_of_complaint hvalue hfails) (unobstructed_of_not_checks hnone)
      | ok v => exact fulfils_checkValue_iff ⟨hread, given, json, hcommand, hv⟩ json

/-- Values without numbers of too many digits stop no check. -/
theorem not_stopsAtNumber
    (h : ∀ settings source v, i.Checks env settings source v → v.Writable) :
    ¬i.StopsAtNumber env := by
  rintro ⟨settings, source, v, w, verdict, hchecks, hw, -, -, hstops⟩
  have hends := settings.validatorFor_text source
  rw [hw] at hends
  obtain ⟨-, ⟨⟩⟩ | ⟨-, hrenders⟩ := hends
  have hwritten := Validator.Renders.written hrenders v
  rw [hstops] at hwritten
  exact hwritten.2 (h settings source v hchecks)

/-- Whatever the loader, if it gives every document that is named a value or finds that there is
none, the exit code is as promised unless an alias has no name or an accepted value holds a
number of too many digits that had to be written. So it is wherever all aliases have names and
no value holds such a number. -/
theorem keepsPromise_iff (h : Request.ofArguments args = .run i)
    (hdocuments : ∀ text ∈ i.documents env, Document.Settled env.load text) :
    (KeepsPromise env args i ↔ ¬i.HasEmptyAlias env ∧ ¬i.StopsAtNumber env)
      ∧ ((∀ settings source v, i.Checks env settings source v →
        settings.forbidden? ≠ some "" ∧ v.Writable) → KeepsPromise env args i) := by
  have hiff : KeepsPromise env args i ↔ ¬i.HasEmptyAlias env ∧ ¬i.StopsAtNumber env :=
    (keepsPromise_iff_fulfils h).trans (fulfils_perform_iff hdocuments)
  refine ⟨hiff, fun hplain => hiff.2 ⟨?_, not_stopsAtNumber fun settings source v hchecks =>
    (hplain settings source v hchecks).2⟩⟩
  rintro ⟨settings, source, v, hchecks, hempty⟩
  exact (hplain settings source v hchecks).1 hempty

/-- A file of settings with one alias. -/
def aliasFile (name : String) : Surroundings where
  files := filesOfTexts [("c.yaml", "aliases: \x7b\"" ++ name ++ "\": string\x7d")]
  standard := none
  load := Yaml.loader

def aliasArguments : List String :=
  ["--config", "c.yaml", "check", "string", "--value", "x"]

def aliasInvocation : Invocation :=
  { config := some "c.yaml", overrides := [], command := .check "string" (.text "x") false }

/-- An alias that a check does not use breaks no promise as long as it has a name. -/
theorem namedAlias_keepsPromise :
    Request.ofArguments aliasArguments = .run aliasInvocation
      ∧ (∀ text ∈ aliasInvocation.documents (aliasFile "Name"), Document.Settled Yaml.loader text)
      ∧ KeepsPromise (aliasFile "Name") aliasArguments aliasInvocation := by
  have hrequest : Request.ofArguments aliasArguments = .run aliasInvocation := by decide +kernel
  have hread : ∀ text ∈ aliasInvocation.documents (aliasFile "Name"),
      (Yaml.loader text).isOk = true := by
    decide +kernel
  have hdocuments : ∀ text ∈ aliasInvocation.documents (aliasFile "Name"),
      Document.Settled Yaml.loader text := by
    intro text ht r hload
    have := hread text ht
    rw [hload] at this
    cases this
  refine ⟨hrequest, hdocuments, (keepsPromise_iff hrequest hdocuments).2 ?_⟩
  rintro settings source v ⟨hsettings, given, json, hcommand, hvalue⟩
  have hv : readValue (aliasFile "Name") (.text "x") = .ok (.text "x") := by cbv
  have hs : (readSettings (aliasFile "Name") (some "c.yaml") []).toOption
      = some { enabled := true, warns := true, aliases := [("Name", "string")] } := by
    decide +kernel
  cases hcommand
  cases hv.symm.trans hvalue
  change readSettings (aliasFile "Name") (some "c.yaml") [] = .ok settings at hsettings
  rw [hsettings] at hs
  cases hs
  exact ⟨by decide, .text "x"⟩

/-- An alias without a name ends a check that does not use it with a fault. -/
theorem emptyAlias_not_keepsPromise :
    Request.ofArguments aliasArguments = .run aliasInvocation
      ∧ (∀ text ∈ aliasInvocation.documents (aliasFile ""), (Yaml.loader text).isOk = true)
      ∧ ¬KeepsPromise (aliasFile "") aliasArguments aliasInvocation := by
  refine ⟨by decide +kernel, by decide +kernel, ?_⟩
  rintro ⟨o, hrun, -⟩
  have hfault : (run (aliasFile "") aliasArguments).isOk = false := by decide +kernel
  rw [hrun] at hfault
  cases hfault

end CommandLine

end StructuralTypes

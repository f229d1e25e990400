import Mathlib
import PatternLoom.Proofs.Command.Builds
import PatternLoom.Proofs.Midi.Failures

/-! Runs that come to their end. With settings in sections of single values a run ends well or
reports why it does not, unless the command slips, the level of the log cannot be written, or the
output has no place to go to. -/

namespace PatternLoom

section Importing

open Midi (FailsAs Innate ImportableWith)

theorem not_unreported_reach (files : Folder) (making : Bool) (path : String) :
    ¬ Unreported (files.reach making path) := by
  unfold Folder.reach
  dsimp only
  split
  · exact not_unreported_error rfl
  · cases files.walk making [] (parts '/' path.toList) with
    | ok route => exact not_unreported_ok route
    | error problem => exact not_unreported_error rfl

theorem not_unreported_read (files : Folder) (path : String) : ¬ Unreported (files.read path) := by
  unfold Folder.read
  split
  · exact not_unreported_ok _
  · refine not_unreported_bind (not_unreported_reach files false path) fun route _ => ?_
    split
    · exact not_unreported_ok _
    · exact not_unreported_error rfl

/-- What escapes from an import is not reported, and all else is. -/
theorem unreported_refuseUnusable {α : Type} {x : Result α} (hx : FailsAs Innate x) :
    Unreported (Midi.refuseUnusable x) ↔ Midi.Escapes x := by
  cases x with
  | ok a => exact iff_of_false (not_unreported_ok a) (Midi.not_escapes_ok a)
  | error e =>
    rw [Midi.refuseUnusable, unreported_error, Midi.escapes_error]
    have hrefused : ∀ reason, (Failure.refusedImport reason).report ≠ none := by
      rintro reason ⟨⟩
    cases hx e rfl with
    | refused reason => exact iff_of_false (hrefused reason) fun h => h.2 reason rfl
    | divisionByZero => exact iff_of_true rfl Midi.escaping_divisionByZero
    | notANumber => exact iff_of_false (hrefused _) fun h => absurd h.1 (by decide)
    | unbounded => exact iff_of_true rfl Midi.escaping_unbounded
    | beyondRange => exact iff_of_true rfl Midi.escaping_beyondRange
    | keySignature => exact iff_of_true rfl Midi.escaping_keySignature
    | wrongKind =>
      refine iff_of_true rfl ⟨rfl, ?_⟩
      rintro reason ⟨⟩

theorem unreported_importGiven (data : List UInt8) (filename : String) (given : Midi.GivenOptions) :
    Unreported (Midi.importGiven data filename given) ↔ ¬ ImportableWith data filename given := by
  rw [← Midi.not_escapes_given, not_not]
  refine unreported_refuseUnusable ?_
  exact (Midi.innate_read data).bind fun score => (Midi.innate_optionsFor given score).bind
    fun options => Midi.innate_convert score filename options

/-- An import that fails without a report, of a file that is there. -/
def ImportRequest.Slips (r : ImportRequest) (file : String) (settings : Value)
    (around : Surroundings) : Prop :=
  ∃ own data, Settings.section? settings "midi_import" = .ok own ∧
    around.files.read file = .ok data ∧ ¬ ImportableWith data (baseName file) (r.given own)

theorem ImportRequest.unreported_attempt {r : ImportRequest} {settings : Value}
    (hs : FlatSettings settings) (file : String) (around : Surroundings) :
    Unreported (r.attempt file settings around).result ↔ r.Slips file settings around := by
  obtain ⟨own, hown, -⟩ := hs.section_eq_ok "midi_import"
  have hresult : (r.attempt file settings around).result = (do
      let data ← around.files.read file
      return .imported (← Midi.importGiven data (baseName file) (r.given own))) := by
    unfold attempt
    rw [hown]
    simp only [bind, Except.bind, pure, Except.pure]
    cases around.files.read file with
    | error e => rfl
    | ok data =>
      dsimp only
      cases Midi.importGiven data (baseName file) (r.given own) with
      | error e => rfl
      | ok imported => rfl
  have himport : ∀ data, Unreported (do
      return Product.imported (← Midi.importGiven data (baseName file) (r.given own))) ↔
      ¬ ImportableWith data (baseName file) (r.given own) := fun data =>
    (unreported_followed fun _ _ => not_unreported_ok _).trans (unreported_importGiven _ _ _)
  rw [hresult, unreported_bind, or_iff_right (not_unreported_read around.files file), Slips]
  constructor
  · rintro ⟨data, hdata, h⟩
    exact ⟨own, data, hown, hdata, (himport data).mp h⟩
  · rintro ⟨own', data, hown', hdata, h⟩
    obtain rfl := Except.ok.inj (hown.symm.trans hown')
    exact ⟨data, hdata, (himport data).mpr h⟩

end Importing

section Commands

variable {settings : Value}

/-- A command that fails without a report. -/
def Command.Slips (command : Command) (settings : Value) (around : Surroundings) : Prop :=
  match command with
  | templates => False
  | generate r => r.build.Slips settings r.bars
  | arrange r => r.build.Slips settings none
  | importMidi file r => r.Slips file settings around

theorem Command.unreported_attempt (command : Command) (hs : FlatSettings settings)
    (around : Surroundings) :
    Unreported (command.attempt settings around).result ↔ command.Slips settings around := by
  cases command with
  | templates => exact iff_of_false (not_unreported_ok _) id
  | generate r => exact GenerateRequest.unreported_attempt hs around
  | arrange r => exact ArrangeRequest.unreported_attempt hs around
  | importMidi file r => exact ImportRequest.unreported_attempt hs file around

end Commands

section Running

/-- The level of the log is not read from the settings, or can be written. -/
def Globals.Levelled (g : Globals) (settings : Value) : Prop :=
  g.verbose ∨ ∀ own, Settings.section? settings "logging" = .ok own →
    ((own.get? "level").getD (.text LogLevel.info.name)).isWritable

variable {settings : Value} {noted : List LogEntry} {i : Invocation} {around : Surroundings}

theorem Globals.logLevel_eq_ok (g : Globals) (hs : FlatSettings settings) :
    (∃ level, g.logLevel settings = .ok level) ↔ g.Levelled settings := by
  unfold logLevel Levelled
  cases g.verbose with
  | true => exact iff_of_true ⟨.debug, rfl⟩ (.inl rfl)
  | false =>
    obtain ⟨own, hown, -⟩ := hs.section_eq_ok "logging"
    have hlevel : LogLevel.ofSettings settings = (do
        let name ← ((own.get? "level").getD (.text LogLevel.info.name)).written
        return LogLevel.ofName name) := by
      rw [LogLevel.ofSettings, hown]
      rfl
    rw [if_neg Bool.false_ne_true, hlevel, or_iff_right Bool.false_ne_true, hown]
    constructor
    · rintro ⟨level, h⟩ own' hown'
      obtain rfl := Except.ok.inj hown'
      obtain ⟨name, hname, -⟩ := bind_eq_ok.mp h
      exact Value.written_eq_ok.mp ⟨name, hname⟩
    · intro h
      obtain ⟨name, hname⟩ := Value.written_eq_ok.mpr (h own rfl)
      exact ⟨_, bind_eq_ok.mpr ⟨name, hname, rfl⟩⟩

/-- What a run comes to. -/
inductive Invocation.Ends (i : Invocation) (settings : Value) (around : Surroundings) :
    Outcome → Prop
  | well {product : Product} (made : (i.command.attempt settings around).result = .ok product)
    (log : List LogEntry) :
    Ends i settings around ⟨i.globals, log, .ok (product.mapCode i.globals.retime)⟩
  | badly {failure : Failure} {line : String}
    (failed : (i.command.attempt settings around).result = .error failure)
    (reported : failure.report = some line) (log : List LogEntry) :
    Ends i settings around ⟨i.globals, log, .error line⟩

theorem Invocation.run_ends (hs : i.globals.settings around = .ok (settings, noted)) {o : Outcome}
    (h : i.run around = .ok o) : i.Ends settings around o := by
  obtain ⟨_, hs', h⟩ := bind_eq_ok.mp h
  obtain rfl := Except.ok.inj (hs.symm.trans hs')
  obtain ⟨level, -, h⟩ := bind_eq_ok.mp h
  dsimp only at h
  split at h
  · rename_i product hproduct
    obtain rfl := pure_eq_ok.mp h
    exact .well hproduct _
  · rename_i failure hfailure
    split at h
    · rename_i line hline
      obtain rfl := pure_eq_ok.mp h
      exact .badly hfailure hline _
    · cases h

theorem Invocation.run_eq_ok (hs : i.globals.settings around = .ok (settings, noted)) :
    (∃ o, i.run around = .ok o) ↔ (∃ level, i.globals.logLevel settings = .ok level) ∧
      ¬ Unreported (i.command.attempt settings around).result := by
  constructor
  · rintro ⟨o, h⟩
    refine ⟨?_, ?_⟩
    · obtain ⟨_, hs', h⟩ := bind_eq_ok.mp h
      obtain rfl := Except.ok.inj (hs.symm.trans hs')
      obtain ⟨level, hlevel, -⟩ := bind_eq_ok.mp h
      exact ⟨level, hlevel⟩
    · rintro ⟨e, he, hnone⟩
      cases run_ends hs h with
      | well made => cases made.symm.trans he
      | badly failed reported =>
        obtain rfl := Except.error.inj (failed.symm.trans he)
        cases hnone.symm.trans reported
  · rintro ⟨⟨level, hlevel⟩, hreported⟩
    unfold run
    simp only [bind, Except.bind, hs, hlevel]
    cases hresult : (i.command.attempt settings around).result with
    | ok product => exact ⟨_, rfl⟩
    | error failure =>
      rw [hresult, unreported_error] at hreported
      obtain ⟨line, hline⟩ := Option.ne_none_iff_exists'.mp hreported
      simp only [hline]
      exact ⟨_, rfl⟩

end Running

section Ending

variable {settings : Value} {noted : List LogEntry} {i : Invocation} {around : Surroundings}
  {o : Outcome} {left : Folder} {stamp : Stamp}

/-- A run that puts out its product, with nothing said about an error. -/
structure Outcome.EndsWell (o : Outcome) (product : Product) (stamp : Stamp) (files left : Folder) :
    Prop where
  exitCode_eq : o.exitCode = 0
  complaint_eq : o.complaint = ""
  output_eq : o.output stamp =
    (if o.globals.asJson then (product.record stamp).render 0 else product.text) ++ "\n"
  put : match o.destination with
    | some name => files.write name (o.output stamp).toUTF8.toList = .ok left
    | none => left = files

/-- A run that says in a line why it failed, puts nothing out and leaves the files as they were. The
line is one line as long as the texts are that it quotes. -/
structure Outcome.EndsBadly (o : Outcome) (failure : Failure) (stamp : Stamp)
    (files left : Folder) : Prop where
  exitCode_eq : o.exitCode = 1
  output_eq : o.output stamp = ""
  left_eq : left = files
  complains : ∃ message,
    o.complaint = "error: " ++ failure.reportKind ++ ": " ++ message ++ "\n" ∧
    failure.reportText = some message ∧
    (OneLine message ↔ ∀ given ∈ failure.quoted, OneLine given)

/-- The output of a command that makes one has a place to go to. -/
def Invocation.Placed (i : Invocation) (settings : Value) (around : Surroundings) : Prop :=
  ∀ product, (i.command.attempt settings around).result = .ok product →
    ∀ name ∈ nonempty i.globals.output, ∃ route, around.files.reach true name = .ok route

theorem exists_write {files : Folder} {name : String} {content : List UInt8} :
    (∃ left, files.write name content = .ok left) ↔ ∃ route, files.reach true name = .ok route := by
  constructor
  · rintro ⟨left, h⟩
    obtain ⟨route, hroute, -⟩ := bind_eq_ok.mp h
    exact ⟨route, hroute⟩
  · rintro ⟨route, hroute⟩
    unfold Folder.write
    simp only [bind, Except.bind, hroute]
    split
    · exact ⟨_, rfl⟩
    · exact ⟨_, rfl⟩

theorem Outcome.leaves_well {product : Product} (h : o.ending = .ok product) {files : Folder} :
    o.leaves stamp files = match o.destination with
      | some name => files.write name (o.output stamp).toUTF8.toList
      | none => .ok files := by
  unfold leaves
  rw [h]
  cases o.destination with
  | some name => rfl
  | none => rfl

theorem Outcome.leaves_badly {line : String} (h : o.ending = .error line) {files : Folder} :
    o.leaves stamp files = .ok files := by
  unfold leaves
  rw [h]
  cases o.destination with
  | some name => rfl
  | none => rfl

theorem Invocation.exists_leaves (h : i.Ends settings around o) :
    (∃ left, o.leaves stamp around.files = .ok left) ↔ i.Placed settings around := by
  cases h with
  | @well product made log =>
    rw [Outcome.leaves_well rfl, Placed, Outcome.destination]
    cases nonempty i.globals.output with
    | none =>
      refine iff_of_true ⟨around.files, rfl⟩ fun product _ name hname => ?_
      cases hname
    | some name =>
      refine exists_write.trans ⟨fun h product _ other hname => ?_, fun h => h product made name rfl⟩
      obtain rfl := Option.some.inj hname
      exact h
  | badly failed reported log =>
    refine iff_of_true ⟨around.files, Outcome.leaves_badly rfl⟩ fun product hproduct => ?_
    cases failed.symm.trans hproduct

theorem Invocation.Ends.tells (h : i.Ends settings around o)
    (hleft : o.leaves stamp around.files = .ok left) :
    (∃ product, (i.command.attempt settings around).result = .ok product ∧
      o.EndsWell (product.mapCode i.globals.retime) stamp around.files left) ∨
    ∃ failure, (i.command.attempt settings around).result = .error failure ∧
      o.EndsBadly failure stamp around.files left := by
  cases h with
  | @well product made log =>
    refine .inl ⟨product, made, rfl, rfl, rfl, ?_⟩
    rw [Outcome.leaves_well rfl] at hleft
    split at hleft
    · exact hleft
    · exact (Except.ok.inj hleft).symm
  | @badly failure line failed reported log =>
    obtain ⟨message, hmessage, rfl⟩ := Failure.report_eq_some.mp reported
    rw [Outcome.leaves_badly rfl] at hleft
    exact .inr ⟨failure, failed, rfl, rfl, (Except.ok.inj hleft).symm, message, rfl, hmessage,
      Failure.oneLine_reportText hmessage⟩

theorem Invocation.runToEnd_eq_ok : i.runToEnd around stamp = .ok (o, left) ↔
    i.run around = .ok o ∧ o.leaves stamp around.files = .ok left := by
  unfold runToEnd
  simp only [bind_eq_ok, pure_eq_ok, Prod.mk.injEq]
  constructor
  · rintro ⟨o', hrun, left', hleaves, rfl, rfl⟩
    exact ⟨hrun, hleaves⟩
  · rintro ⟨hrun, hleaves⟩
    exact ⟨o, hrun, left, hleaves, rfl, rfl⟩

/-- With settings in sections of single values a run comes to its end unless the level of the log
cannot be written, the command slips, or the output has no place to go to. It then has put out its
product, or says in a line why there is none. -/
theorem Invocation.runToEnd_tells (hs : i.globals.settings around = .ok (settings, noted))
    (hflat : FlatSettings settings) (stamp : Stamp) :
    ((∃ o left, i.runToEnd around stamp = .ok (o, left)) ↔
      i.globals.Levelled settings ∧ ¬ i.command.Slips settings around ∧ i.Placed settings around) ∧
    ∀ o left, i.runToEnd around stamp = .ok (o, left) →
      (∃ product, (i.command.attempt settings around).result = .ok product ∧
        o.EndsWell (product.mapCode i.globals.retime) stamp around.files left) ∨
      ∃ failure, (i.command.attempt settings around).result = .error failure ∧
        o.EndsBadly failure stamp around.files left := by
  refine ⟨?_, fun o left h => ?_⟩
  · rw [← Globals.logLevel_eq_ok _ hflat, ← Command.unreported_attempt _ hflat, ← and_assoc,
      ← run_eq_ok hs]
    constructor
    · rintro ⟨o, left, h⟩
      obtain ⟨hrun, hleaves⟩ := runToEnd_eq_ok.mp h
      exact ⟨⟨o, hrun⟩, (exists_leaves (run_ends hs hrun)).mp ⟨left, hleaves⟩⟩
    · rintro ⟨⟨o, hrun⟩, hplaced⟩
      obtain ⟨left, hleaves⟩ := (exists_leaves (run_ends hs hrun)).mpr hplaced
      exact ⟨o, left, runToEnd_eq_ok.mpr ⟨hrun, hleaves⟩⟩
  · obtain ⟨hrun, hleaves⟩ := runToEnd_eq_ok.mp h
    exact (run_ends hs hrun).tells hleaves

end Ending

section Misnamed

/-- A template that there is not. -/
def misnamed : Invocation := ⟨{}, .generate { build := { template := some "waltz" } }⟩

theorem misnamed_settings : misnamed.globals.settings {} = .ok (.map [], []) := by
  rfl

theorem flatSettings_empty : FlatSettings (.map []) := by
  refine ⟨[], rfl, fun name own h => ?_⟩
  cases h

theorem misnamed_fails : (misnamed.command.attempt (.map []) {}).result =
    .error (.unknownTemplate "waltz") :=
  eq_error_of_failure? (by decide +kernel)

theorem misnamed_told : misnamed.globals.settings {} = .ok (.map [], []) ∧
    FlatSettings (.map []) ∧ ∀ stamp, ∃ o left, misnamed.runToEnd {} stamp = .ok (o, left) ∧
      o.EndsBadly (.unknownTemplate "waltz") stamp [] left := by
  refine ⟨misnamed_settings, flatSettings_empty, fun stamp => ?_⟩
  obtain ⟨hends, htells⟩ :=
    Invocation.runToEnd_tells (i := misnamed) misnamed_settings flatSettings_empty stamp
  have hlevel : misnamed.globals.Levelled (.map []) := by
    refine .inr fun own hown => ?_
    obtain rfl := Except.ok.inj hown
    trivial
  have hslips : ¬ misnamed.command.Slips (.map []) {} := by
    rintro ⟨t, ht, -⟩
    cases ht
  have hplaced : misnamed.Placed (.map []) {} := fun product hproduct => by
    cases misnamed_fails.symm.trans hproduct
  obtain ⟨o, left, h⟩ := hends.mpr ⟨hlevel, hslips, hplaced⟩
  refine ⟨o, left, h, ?_⟩
  obtain ⟨product, hproduct, -⟩ | ⟨failure, hfailure, hbadly⟩ := htells o left h
  · cases misnamed_fails.symm.trans hproduct
  · obtain rfl := Except.error.inj (misnamed_fails.symm.trans hfailure)
    exact hbadly

end Misnamed

section Bracket

/-- A parameter that begins a list and does not end it. -/
def bracketed : List String := ["generate", "techno", "--seed", "s", "--param", "drive=["]

theorem bracketed_fails : ∃ i, Invocation.read bracketed = .ok i ∧ i.globals.config = none ∧
    i.run {} = .error .malformedDocument := by
  have hread : ((Invocation.read bracketed).toOption.map fun i =>
      (i.globals.config, failure? (i.run {}))) = some (none, some .malformedDocument) := by
    decide +kernel
  cases hi : Invocation.read bracketed with
  | error rejection =>
    rw [hi] at hread
    cases hread
  | ok i =>
    rw [hi] at hread
    obtain ⟨hconfig, hrun⟩ := Prod.mk.inj (Option.some.inj hread)
    exact ⟨i, rfl, hconfig, eq_error_of_failure? hrun⟩

theorem bracketed_untold : ∃ i, Invocation.read bracketed = .ok i ∧
    i.globals.settings {} = .ok (.map [], []) ∧ FlatSettings (.map []) ∧
    ∀ stamp, ¬ ∃ o left, i.runToEnd {} stamp = .ok (o, left) := by
  obtain ⟨i, hi, hconfig, hfails⟩ := bracketed_fails
  refine ⟨i, hi, ?_, flatSettings_empty, ?_⟩
  · unfold Globals.settings Globals.configName
    rw [hconfig]
    rfl
  · rintro stamp ⟨o, left, h⟩
    obtain ⟨hok, -⟩ := Invocation.runToEnd_eq_ok.mp h
    cases hfails.symm.trans hok

end Bracket

end PatternLoom

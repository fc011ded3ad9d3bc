import Sketchwright.CommandLine
import Sketchwright.Proofs.Emission
import Sketchwright.Proofs.Paths
import Sketchwright.Proofs.Sources

/-! Runs of the program. Every stage before the last one only looks at the world, and the last one
changes nothing when it fails: a run that fails leaves everything as it was, and any other one hands
over the whole sketch, on standard output or in the one file that was asked for. -/

namespace Sketchwright.CommandLine

def configFlags : List String := ["--config", "-c"]

def outputFlags : List String := ["--output", "-o"]

/-- An option with the path that follows it. -/
structure Setting where
  flag : String
  path : String

/-- Arguments that ask for something: options, and after them at most one input. -/
structure Invocation where
  settings : List Setting
  input : Option String

namespace Invocation

/-- The input is no option, so that it is not taken for one. -/
structure Proper (i : Invocation) : Prop where
  flags : ∀ setting ∈ i.settings, setting.flag ∈ configFlags ∨ setting.flag ∈ outputFlags
  input : ∀ path ∈ i.input, path ∉ configFlags ∧ path ∉ outputFlags

def args (i : Invocation) : List String :=
  (i.settings.flatMap fun setting => [setting.flag, setting.path]) ++ i.input.toList

/-- The path of the last option of this kind. -/
def last? (i : Invocation) (flags : List String) : Option String :=
  (i.settings.reverse.find? fun setting => flags.contains setting.flag).map Setting.path

def config (i : Invocation) : Option String := i.last? configFlags

def output (i : Invocation) : Option String := i.last? outputFlags

def request (i : Invocation) : Request := ⟨i.config, i.output, i.input⟩

end Invocation

section Wanted

variable (decode : Decoder) (input : Except FileError ByteArray) (files : Files ByteArray)

/-- The configuration at a path, or the standard one. -/
inductive Configured : Option String → Config → Prop
  | standard : Configured none default
  | file {path text config} (hread : textOf (files.read path) = .ok text)
      (hconfig : decode text = .ok config) (hvalid : config.validate = .ok ()) :
      Configured (some path) config

/-- The text of the input, which is standard input if there is no path. -/
inductive Sourced : Option String → String → Prop
  | stdin {source} (hread : textOf input = .ok source) : Sourced none source
  | file {path source} (hread : textOf (files.read path) = .ok source) : Sourced (some path) source

/-- The sketch of the input under the configuration. -/
inductive Sketched (i : Invocation) (text : String) : Prop
  | intro {config translator source} (hconfig : Configured decode files i.config config)
      (htranslator : Translator.ofConfig config = .ok translator)
      (hsource : Sourced input files i.input source)
      (htext : translator.translate source = .ok text)

end Wanted

section Arguments

variable {request request' : Request} {args : List String}

theorem last?_cons (setting : Setting) (settings : List Setting) (input : Option String)
    (flags : List String) :
    Invocation.last? ⟨setting :: settings, input⟩ flags =
      (Invocation.last? ⟨settings, input⟩ flags).or
        (if setting.flag ∈ flags then some setting.path else none) := by
  simp only [Invocation.last?, List.reverse_cons, List.find?_append]
  by_cases hflag : setting.flag ∈ flags
  · cases settings.reverse.find? fun setting => flags.contains setting.flag <;> simp [hflag]
  · cases settings.reverse.find? fun setting => flags.contains setting.flag <;> simp [hflag]

theorem not_mem_outputFlags {flag : String} (h : flag ∈ configFlags) : flag ∉ outputFlags := by
  simp only [configFlags, outputFlags, List.mem_cons, List.not_mem_nil, or_false] at h ⊢
  rcases h with rfl | rfl <;> decide

theorem parse_config {flag path : String} (h : flag ∈ configFlags) :
    parse request (flag :: path :: args) = parse { request with config := some path } args := by
  have hflag : flag = "--config" ∨ flag = "-c" := by simpa [configFlags] using h
  rw [parse, if_pos hflag]

theorem parse_output {flag path : String} (h : flag ∈ outputFlags) :
    parse request (flag :: path :: args) = parse { request with output := some path } args := by
  have hflag : flag = "--output" ∨ flag = "-o" := by simpa [outputFlags] using h
  have hconfig : ¬(flag = "--config" ∨ flag = "-c") := by rcases hflag with rfl | rfl <;> decide
  rw [parse, if_neg hconfig, if_pos hflag]

theorem parse_input {path : String} (h : path ∉ configFlags ∧ path ∉ outputFlags) :
    parse request [path] = .ok { request with input := some path } := by
  have hconfig : ¬(path = "--config" ∨ path = "-c") := by simpa [configFlags] using h.1
  have houtput : ¬(path = "--output" ∨ path = "-o") := by simpa [outputFlags] using h.2
  rw [parse, if_neg hconfig, if_neg houtput]
  rfl

/-- What the options of an invocation add to what was asked for before them. -/
theorem parse_args {settings : List Setting} {input : Option String}
    (h : Invocation.Proper ⟨settings, input⟩) (request : Request) :
    parse request (Invocation.args ⟨settings, input⟩) =
      .ok ⟨(Invocation.last? ⟨settings, input⟩ configFlags).or request.config,
        (Invocation.last? ⟨settings, input⟩ outputFlags).or request.output,
          input.or request.input⟩ := by
  induction settings generalizing request with
  | nil =>
    cases input with
    | none => rfl
    | some path => exact parse_input (h.input path rfl)
  | cons setting settings ih =>
    obtain ⟨hflag, hflags⟩ := List.forall_mem_cons.mp h.flags
    have hrest := ih ⟨hflags, h.input⟩
    show parse request (setting.flag :: setting.path :: Invocation.args ⟨settings, input⟩) = _
    rw [last?_cons, last?_cons]
    rcases hflag with hconfig | houtput
    · rw [parse_config hconfig, hrest, if_pos hconfig, if_neg (not_mem_outputFlags hconfig),
        Option.or_assoc]
      simp
    · have hconfig : setting.flag ∉ configFlags :=
        fun hconfig => not_mem_outputFlags hconfig houtput
      rw [parse_output houtput, hrest, if_pos houtput, if_neg hconfig, Option.or_assoc]
      simp

/-- Arguments that are understood are those of an invocation. -/
theorem exists_invocation (h : parse request args = .ok request') :
    ∃ i : Invocation, i.Proper ∧ i.args = args := by
  fun_induction parse request args with
  | case1 => exact ⟨⟨[], none⟩, ⟨List.forall_mem_nil _, nofun⟩, rfl⟩
  | case2 request arg hflag path args ih =>
    obtain ⟨i, hi, rfl⟩ := ih h
    refine ⟨⟨⟨arg, path⟩ :: i.settings, i.input⟩,
      ⟨List.forall_mem_cons.mpr ⟨.inl ?_, hi.flags⟩, hi.input⟩, rfl⟩
    simpa [configFlags] using hflag
  | case3 => cases h
  | case4 request arg _ hflag path args ih =>
    obtain ⟨i, hi, rfl⟩ := ih h
    refine ⟨⟨⟨arg, path⟩ :: i.settings, i.input⟩,
      ⟨List.forall_mem_cons.mpr ⟨.inr ?_, hi.flags⟩, hi.input⟩, rfl⟩
    simpa [outputFlags] using hflag
  | case5 => cases h
  | case6 request arg args hconfig houtput hempty =>
    obtain rfl := List.isEmpty_iff.mp hempty
    refine ⟨⟨[], some arg⟩, ⟨List.forall_mem_nil _, ?_⟩, rfl⟩
    rintro _ ⟨⟩
    exact ⟨by simpa [configFlags] using hconfig, by simpa [outputFlags] using houtput⟩
  | case7 => cases h

theorem parse_eq_ok : parse noRequest args = .ok request ↔
    ∃ i : Invocation, i.Proper ∧ i.args = args ∧ i.request = request := by
  have hparse : ∀ i : Invocation, i.Proper → parse noRequest i.args = .ok i.request := by
    intro i hi
    rw [parse_args hi]
    simp [noRequest, Invocation.request, Invocation.config, Invocation.output]
  constructor
  · intro h
    obtain ⟨i, hi, rfl⟩ := exists_invocation h
    exact ⟨i, hi, rfl, Except.ok.inj ((hparse i hi).symm.trans h)⟩
  · rintro ⟨i, hi, rfl, rfl⟩
    exact hparse i hi

/-- What follows an option is its path, whatever it looks like. -/
example :
    parse noRequest ["-o", "-c", "--output", "a.ino", "b.py"] =
      .ok ⟨none, some "a.ino", some "b.py"⟩ := rfl

end Arguments

/-- A stage of a run in a world. -/
abbrev Stage (α : Type) := ExceptT Failure (StateM World) α

namespace Stage

variable {α β ε : Type} {w : World}

/-- What a stage gives in a world. -/
def result (stage : Stage α) (w : World) : Except Failure α := (stage.run.run w).1

/-- The world that a stage leaves. -/
def after (stage : Stage α) (w : World) : World := (stage.run.run w).2

/-- A stage that changes nothing. -/
def Quiet (stage : Stage α) : Prop := ∀ w, stage.after w = w

theorem bind_eq (stage : Stage α) (next : α → Stage β) (w : World) :
    (stage >>= next).run.run w = match stage.result w with
      | .ok a => (next a).run.run (stage.after w)
      | .error failure => (.error failure, stage.after w) := by
  unfold result after
  rw [ExceptT.run_bind, StateT.run_bind]
  generalize stage.run.run w = ran
  obtain ⟨found | failure, w'⟩ := ran <;> rfl

/-- What follows a quiet stage finds the world that the stage found. -/
theorem Quiet.bind_eq {stage : Stage α} (h : Quiet stage) (next : α → Stage β) (w : World) :
    (stage >>= next).run.run w = match stage.result w with
      | .ok a => (next a).run.run w
      | .error failure => (.error failure, w) := by
  rw [Stage.bind_eq, h w]

theorem Quiet.bind {stage : Stage α} {next : α → Stage β} (h : Quiet stage)
    (hnext : ∀ a, Quiet (next a)) : Quiet (stage >>= next) := by
  intro w
  unfold after
  rw [h.bind_eq]
  cases stage.result w with
  | error failure => rfl
  | ok a => exact hnext a w

theorem Quiet.bind_eq_ok {stage : Stage α} {next : α → Stage β} {b : β} (h : Quiet stage) :
    (stage >>= next).result w = .ok b ↔
      ∃ a, stage.result w = .ok a ∧ (next a).result w = .ok b := by
  unfold result
  rw [h.bind_eq]
  unfold result
  cases (stage.run.run w).1 <;> simp

theorem quiet_pure (a : α) : Quiet (pure a) := fun _ => rfl

theorem quiet_mk_pure (x : Except Failure α) : Quiet (ExceptT.mk (pure x)) := fun _ => rfl

variable {context : String} {failure : ε → Failure} {step : StateM World (Except ε α)}

theorem during_eq_ok {a : α} :
    result (during context failure step) w = .ok a ↔ (step.run w).1 = .ok a :=
  Outcome.mapError_eq_ok

end Stage

section Stages

open Stage

variable {decode : Decoder} {w : World} {i : Invocation} {request : Request} {text : String}

theorem configOfText_eq_ok {config : Config} : configOfText decode text = .ok config ↔
    decode text = .ok config ∧ config.validate = .ok () := by
  simp only [configOfText, Outcome.bind_eq_ok, Outcome.mapError_eq_ok, Outcome.pure_eq_ok]
  constructor
  · rintro ⟨_, hdecode, _, hvalid, rfl⟩
    exact ⟨hdecode, hvalid⟩
  · rintro ⟨hdecode, hvalid⟩
    exact ⟨config, hdecode, (), hvalid, rfl⟩

theorem quiet_chosenConfig (path : Option String) :
    Quiet (chosenConfig World.system decode path) := by
  cases path with
  | none => exact quiet_pure _
  | some path => exact Quiet.bind (fun _ => rfl) fun _ _ => rfl

theorem chosenConfig_eq_ok {path : Option String} {config : Config} :
    result (chosenConfig World.system decode path) w = .ok config ↔
      Configured decode w.files path config := by
  cases path with
  | none =>
    constructor
    · rintro ⟨⟩
      exact .standard
    · rintro ⟨⟩
      rfl
  | some path =>
    have hread : Quiet (readText ("Reading configuration " ++ path) (World.system.readFile path)) :=
      fun _ => rfl
    rw [chosenConfig, loadConfig, hread.bind_eq_ok]
    simp only [readText, during_eq_ok]
    constructor
    · rintro ⟨text, htext, hconfig⟩
      obtain ⟨hdecode, hvalid⟩ := configOfText_eq_ok.mp hconfig
      exact .file htext hdecode hvalid
    · intro h
      cases h with
      | file htext hdecode hvalid =>
        exact ⟨_, htext, configOfText_eq_ok.mpr ⟨hdecode, hvalid⟩⟩

theorem quiet_sourceText (path : Option String) : Quiet (sourceText World.system path) := by
  cases path <;> exact fun _ => rfl

theorem sourceText_eq_ok {path : Option String} {source : String} :
    result (sourceText World.system path) w = .ok source ↔ Sourced w.input w.files path source := by
  cases path with
  | none =>
    rw [sourceText, readText, during_eq_ok]
    constructor
    · exact .stdin
    · rintro ⟨hread⟩
      exact hread
  | some path =>
    rw [sourceText, readText, during_eq_ok]
    constructor
    · exact .file
    · intro h
      cases h with
      | file hread => exact hread

/-- Nothing is changed before the sketch is there. -/
theorem quiet_sketch (request : Request) : Quiet (sketch World.system decode request) := by
  apply (quiet_chosenConfig _).bind
  intro config
  apply Quiet.bind (fun _ => rfl)
  intro translator
  exact (quiet_sourceText _).bind fun _ _ => rfl

theorem sketch_eq_ok : result (sketch World.system decode i.request) w = .ok text ↔
    Sketched decode w.input w.files i text := by
  have happlied : ∀ config, Quiet (during "Applying configuration"
      (fun error : ConfigError => ⟨error.message, []⟩) (pure (Translator.ofConfig config))) :=
    fun _ _ => rfl
  simp only [sketch, (quiet_chosenConfig _).bind_eq_ok, (happlied _).bind_eq_ok,
    (quiet_sourceText _).bind_eq_ok, during_eq_ok, chosenConfig_eq_ok, sourceText_eq_ok]
  constructor
  · rintro ⟨config, hconfig, translator, htranslator, source, hsource, htext⟩
    exact .intro hconfig htranslator hsource htext
  · rintro ⟨hconfig, htranslator, hsource, htext⟩
    exact ⟨_, hconfig, _, htranslator, _, hsource, htext⟩

theorem writeFile_ok {path : String} {content : ByteArray} {files : Files ByteArray}
    (h : w.files.write path content = .ok files) :
    (World.writeFile path content).run w = (.ok (), { w with files := files }) := by
  simp only [World.writeFile, StateT.run_bind, StateT.run_get, pure_bind, h]
  rfl

theorem writeFile_error {path : String} {content : ByteArray} {error : FileError}
    (h : w.files.write path content = .error error) :
    (World.writeFile path content).run w = (.error error, w) := by
  simp only [World.writeFile, StateT.run_bind, StateT.run_get, pure_bind, h]
  rfl

/-- A sketch is handed over on standard output, or in a file that can be written; if it cannot,
nothing is changed. -/
theorem deliver_cases (request : Request) (text : String) (w : World) :
    request.output = none ∧ (deliver World.system request text).run.run w =
        (.ok (), { w with stdout := w.stdout ++ text }) ∨
      ∃ path, request.output = some path ∧
        ((∃ files, w.files.write path text.toUTF8 = .ok files ∧
            (deliver World.system request text).run.run w = (.ok (), { w with files := files })) ∨
          ∃ error failure, w.files.write path text.toUTF8 = .error error ∧
            (deliver World.system request text).run.run w = (.error failure, w)) := by
  cases houtput : request.output with
  | none =>
    left
    refine ⟨rfl, ?_⟩
    simp only [deliver, houtput]
    rfl
  | some path =>
    right
    have hstep : (deliver World.system request text).run.run w =
        (((World.writeFile path text.toUTF8).run w).1.mapError
          fun error => Failure.within ("Writing " ++ path) ⟨error.message, []⟩,
        ((World.writeFile path text.toUTF8).run w).2) := by
      simp only [deliver, houtput]
      rfl
    refine ⟨path, rfl, ?_⟩
    rw [hstep]
    cases hwrite : w.files.write path text.toUTF8 with
    | ok files =>
      rw [writeFile_ok hwrite]
      exact .inl ⟨files, rfl, rfl⟩
    | error error =>
      rw [writeFile_error hwrite]
      exact .inr ⟨error, _, rfl, rfl⟩

theorem stages_of_parse {args : List String} (hparse : parse noRequest args = .ok request) :
    (stages World.system decode args).run.run w =
      (sketch World.system decode request >>= deliver World.system request).run.run w := by
  rw [stages, (quiet_mk_pure _).bind_eq, hparse]
  rfl

/-- When the sketch is there, handing it over is what is left of a run. -/
theorem stages_of_sketched (hi : i.Proper) (h : Sketched decode w.input w.files i text) :
    (stages World.system decode i.args).run.run w =
      (deliver World.system i.request text).run.run w := by
  rw [stages_of_parse (parse_eq_ok.mpr ⟨i, hi, rfl, rfl⟩), (quiet_sketch _).bind_eq,
    sketch_eq_ok.mpr h]

/-- A run fails before anything is changed, or it has a sketch to hand over. -/
theorem stages_cases (decode : Decoder) (args : List String) (w : World) :
    (∃ failure, (stages World.system decode args).run.run w = (.error failure, w)) ∨
      ∃ (i : Invocation) (text : String), i.Proper ∧ i.args = args ∧
        Sketched decode w.input w.files i text := by
  cases hparse : parse noRequest args with
  | error failure =>
    left
    rw [stages, (quiet_mk_pure _).bind_eq, hparse]
    exact ⟨failure, rfl⟩
  | ok request =>
    obtain ⟨i, hi, rfl, rfl⟩ := parse_eq_ok.mp hparse
    rw [stages_of_parse hparse, (quiet_sketch _).bind_eq]
    cases hsketch : result (sketch World.system decode i.request) w with
    | error failure => exact .inl ⟨failure, rfl⟩
    | ok text => exact .inr ⟨i, text, hi, rfl, sketch_eq_ok.mp hsketch⟩

theorem outcome_eq (decode : Decoder) (args : List String) (input : Except FileError ByteArray)
    (files : Files ByteArray) : outcome decode args input files =
      match (stages World.system decode args).run.run ⟨input, files, "", ""⟩ with
      | (.ok (), w) => ⟨0, w.stdout, w.stderr, w.files⟩
      | (.error failure, w) => ⟨1, w.stdout, w.stderr ++ failure.text, w.files⟩ := by
  unfold outcome start
  rw [StateT.run_bind]
  generalize (stages World.system decode args).run.run ⟨input, files, "", ""⟩ = ran
  obtain ⟨found | failure, w⟩ := ran <;> rfl

end Stages

/-- A run fails and leaves everything as it was, or hands over the whole sketch where its arguments
want it and changes nothing else. It goes well whenever its arguments, its configuration, its input
and the path of the output allow it. -/
theorem run_all_or_nothing (decode : Decoder) (args : List String)
    (input : Except FileError ByteArray) (files : Files ByteArray) :
    ((outcome decode args input files).exit = 1 ∧ (outcome decode args input files).stdout = "" ∧
        (outcome decode args input files).files = files ∨
      (outcome decode args input files).exit = 0 ∧
        ∃ (i : Invocation) (text : String), i.Proper ∧ i.args = args ∧
          Sketched decode input files i text ∧
          (i.output = none ∧ (outcome decode args input files).stdout = text ∧
              (outcome decode args input files).files = files ∨
            ∃ path, i.output = some path ∧ (outcome decode args input files).stdout = "" ∧
              (outcome decode args input files).files.read path = .ok text.toUTF8 ∧
              ∀ way, (outcome decode args input files).files.file? way =
                if way = Files.place path then some text.toUTF8 else files.file? way)) ∧
    ∀ (i : Invocation) (text : String), i.Proper → i.args = args →
      Sketched decode input files i text →
      (∀ path ∈ i.output, ∃ files', files.write path text.toUTF8 = .ok files') →
      (outcome decode args input files).exit = 0 := by
  constructor
  · rw [outcome_eq]
    rcases stages_cases decode args ⟨input, files, "", ""⟩ with
      ⟨failure, hstages⟩ | ⟨i, text, hi, rfl, hsketched⟩
    · rw [hstages]
      exact .inl ⟨rfl, rfl, rfl⟩
    rw [stages_of_sketched hi hsketched]
    rcases deliver_cases i.request text ⟨input, files, "", ""⟩ with
      ⟨houtput, hdeliver⟩ | ⟨path, houtput, ⟨files', hwrite, hdeliver⟩ | ⟨_, _, _, hdeliver⟩⟩
    · rw [hdeliver]
      exact .inr ⟨rfl, i, text, hi, rfl, hsketched, .inl ⟨houtput, String.empty_append, rfl⟩⟩
    · rw [hdeliver]
      exact .inr ⟨rfl, i, text, hi, rfl, hsketched, .inr ⟨path, houtput, rfl,
        Files.read_write hwrite, Files.file?_write hwrite⟩⟩
    · rw [hdeliver]
      exact .inl ⟨rfl, rfl, rfl⟩
  · rintro i text hi rfl hsketched hwritable
    rw [outcome_eq, stages_of_sketched hi hsketched]
    rcases deliver_cases i.request text ⟨input, files, "", ""⟩ with
      ⟨_, hdeliver⟩ | ⟨path, houtput, ⟨_, _, hdeliver⟩ | ⟨error, _, hrefused, _⟩⟩
    · rw [hdeliver]
    · rw [hdeliver]
    · obtain ⟨files', hwrite⟩ := hwritable path houtput
      rw [hrefused] at hwrite
      cases hwrite

/-- Of two paths for the output the last one counts. -/
def sampleInvocation : Invocation :=
  ⟨[⟨"-o", "first.ino"⟩, ⟨"--config", "narrow.yaml"⟩, ⟨"--output", "last.ino"⟩], some "loop.py"⟩

def sampleFiles : Files ByteArray := [
  ("narrow.yaml", "indent_width: 2\n".toUTF8), ("loop.py", Program.sampleText.toUTF8)]

def sampleSketch : String :=
  "void loop() \x7b\n  int x = f(1);\n\x7d\nint f(int a) \x7b\n  return a;\n\x7d\n"

theorem run_all_or_nothing_sample : sampleInvocation.Proper ∧
    Sketched readYaml (.error .notText) sampleFiles sampleInvocation sampleSketch ∧
    (outcome readYaml sampleInvocation.args (.error .notText) sampleFiles).exit = 0 := by
  have hproper : sampleInvocation.Proper := ⟨by decide, by decide⟩
  have hread : textOf (sampleFiles.read "narrow.yaml") = .ok "indent_width: 2\n" := by
    decide +kernel
  have hconfig : Configured readYaml sampleFiles sampleInvocation.config ⟨2, .float, [], []⟩ :=
    .file hread (by decide +kernel) rfl
  have hsource : Sourced (.error .notText) sampleFiles sampleInvocation.input Program.sampleText :=
    .file (by decide +kernel)
  have hgenerate : ((Inference.infer .builtin Program.sample).1.bind
      (Translator.generate ⟨⟨2, .float, [], []⟩, .builtin⟩)).toOption = some sampleSketch := by
    decide +kernel
  have htext : Translator.translate ⟨⟨2, .float, [], []⟩, .builtin⟩ Program.sampleText =
      .ok sampleSketch := by
    rw [Translator.translate_eq, Program.ofSource_sample]
    exact Outcome.eq_ok_of_toOption hgenerate
  have hsketched := Sketched.intro hconfig rfl hsource htext
  have hwritable : ∀ path ∈ sampleInvocation.output, ∃ files',
      sampleFiles.write path sampleSketch.toUTF8 = .ok files' := by
    rintro _ ⟨⟩
    exact ⟨_, rfl⟩
  obtain ⟨-, hsuccess⟩ := run_all_or_nothing readYaml sampleInvocation.args (.error .notText)
    sampleFiles
  exact ⟨hproper, hsketched, hsuccess sampleInvocation sampleSketch hproper rfl hsketched hwritable⟩

end Sketchwright.CommandLine

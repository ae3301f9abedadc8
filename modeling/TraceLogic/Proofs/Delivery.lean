import TraceLogic.CommandLine
import TraceLogic.Proofs.Footprint

/-!
# What a run of the command line leaves behind

A run reads the settings, then the program, and works out its conditions before it writes anything.
So a run that fails up to there leaves the file tree as it was, and what is written was worked out
from the tree that the run has met, even if the output takes the place of a file that was read.

`CommandLine.run_all_or_nothing` says what standard output and the file tree are after a run, for
all arguments and all trees. `Settings.InForce` and `Program.Described` say what is read,
`CommandLine.optionsInForce` and `CommandLine.outputInForce` what follows from the settings and the
arguments together.
-/

namespace TraceLogic

open FileTree

variable {t u : FileTree} {workplace : List String} {program : Path}

/-! ## Reading -/

/-- A step hands its result and the tree it leaves to the next one. -/
theorem run_bind_of_run_eq {α β : Type} {x : StateM FileTree α} {a : α} (h : x.run t = (a, u))
    (next : α → StateM FileTree β) : (x >>= next).run t = (next a).run u := by
  change (next (x.run t).1).run (x.run t).2 = _
  rw [h]

/-- Reading a file gives what is there and changes nothing. -/
theorem run_readText {path : Path} {read : Except ReadFault String}
    (h : t.readText workplace path = read) :
    ((access workplace).readText path).run t = (read, t) := by
  rw [← h]
  rfl

namespace Settings

/-- Looking for a settings file in directories tries them in order, and changes nothing. -/
theorem run_findIn (t : FileTree) (workplace : List String) (directories : List Path) :
    (findIn (access workplace) directories).run t =
      ((directories.map (·.join fileName)).find? (t.isFile workplace), t) := by
  induction directories with
  | nil => rfl
  | cons directory rest ih =>
    have hread : ((access workplace).isFile (directory.join fileName)).run t =
        (t.isFile workplace (directory.join fileName), t) := rfl
    rw [findIn, run_bind_of_run_eq hread, List.map_cons, List.find?_cons]
    cases t.isFile workplace (directory.join fileName) with
    | true => rfl
    | false => exact ih

/-- Looking for the nearest settings file tries the directories that are searched in order, and
changes nothing. -/
theorem run_find (t : FileTree) (workplace : List String) (start : Path) :
    (find (access workplace) start).run t =
      (((searched (t.isFile workplace start) start).map (·.join fileName)).find?
        (t.isFile workplace), t) :=
  run_findIn t workplace _

/-- The settings file that counts: the one that is named, or the nearest one. -/
def fileFor (t : FileTree) (workplace : List String) (program : Path) (explicit : Option Path) :
    Option Path :=
  explicit.or ((find (access workplace) program).run t).1

/-- Whether a settings file is the one that counts, together with what it says. Without a file, the
default settings count. -/
def InForce (t : FileTree) (workplace : List String) (program : Path) (explicit : Option Path) :
    Option (Path × Settings) → Prop
  | none => fileFor t workplace program explicit = none
  | some (path, s) => fileFor t workplace program explicit = some path ∧
      ∃ text, t.readText workplace path = .ok text ∧ parse? text = some s

/-- No more than one settings file counts, and it says one thing. -/
theorem InForce.unique {explicit : Option Path} {config config' : Option (Path × Settings)}
    (h : InForce t workplace program explicit config)
    (h' : InForce t workplace program explicit config') : config = config' := by
  cases config with
  | none =>
    cases config' with
    | none => rfl
    | some settings' => exact absurd (h.symm.trans h'.1) (by simp)
  | some settings =>
    cases config' with
    | none => exact absurd (h'.symm.trans h.1) (by simp)
    | some settings' =>
      obtain ⟨hfile, text, hread, hparse⟩ := h
      obtain ⟨hfile', text', hread', hparse'⟩ := h'
      have hpath : settings.1 = settings'.1 := Option.some.inj (hfile.symm.trans hfile')
      rw [← hpath, hread] at hread'
      rw [← Except.ok.inj hread', hparse] at hparse'
      rw [Prod.ext hpath (Option.some.inj hparse')]

/-- The settings that a settings file gives, if there is one. -/
def resolved : Option (Path × Settings) → ResolvedSettings
  | none => {}
  | some (path, s) => s.resolve path

/-- Without a settings file, the default settings are loaded. -/
theorem run_load_of_fileFor_eq_none {explicit : Option Path}
    (h : fileFor t workplace program explicit = none) :
    (load (access workplace) program explicit).run t = (.ok {}, t) := by
  obtain ⟨rfl, hfind⟩ := Option.or_eq_none_iff.mp h
  have hfound : (find (access workplace) program).run t = (none, t) :=
    Prod.ext hfind (by rw [run_find])
  rw [load, run_bind_of_run_eq hfound]
  rfl

/-- The settings file that counts is the one that is read. -/
theorem run_load_of_fileFor_eq_some {explicit : Option Path} {path : Path}
    (h : fileFor t workplace program explicit = some path) :
    (load (access workplace) program explicit).run t =
      (readFrom (access workplace) path).run t := by
  cases explicit with
  | some named =>
    obtain rfl : named = path := by simpa [fileFor] using h
    rfl
  | none =>
    have hfind : ((find (access workplace) program).run t).1 = some path := by
      simpa [fileFor] using h
    have hfound : (find (access workplace) program).run t = (some path, t) :=
      Prod.ext hfind (by rw [run_find])
    rw [load, run_bind_of_run_eq hfound]

/-- The settings in force are loaded. -/
theorem run_load_of_inForce {explicit : Option Path} {config : Option (Path × Settings)}
    (h : InForce t workplace program explicit config) :
    (load (access workplace) program explicit).run t = (.ok (resolved config), t) := by
  cases config with
  | none => exact run_load_of_fileFor_eq_none h
  | some settings =>
    obtain ⟨path, s⟩ := settings
    obtain ⟨hfile, text, hread, hparse⟩ := h
    rw [run_load_of_fileFor_eq_some hfile, readFrom, run_bind_of_run_eq (run_readText hread)]
    simp only [hparse]
    rfl

/-- Loading fails if there are no settings in force, because the file that counts cannot be read or
understood. -/
theorem run_load_of_not_inForce {explicit : Option Path}
    (h : ¬∃ config, InForce t workplace program explicit config) :
    ∃ fault, (load (access workplace) program explicit).run t = (.error fault, t) := by
  cases hfile : fileFor t workplace program explicit with
  | none => exact absurd ⟨none, hfile⟩ h
  | some path =>
    rw [run_load_of_fileFor_eq_some hfile, readFrom]
    cases hread : t.readText workplace path with
    | error fault => exact ⟨_, run_bind_of_run_eq (run_readText hread) _⟩
    | ok text =>
      rw [run_bind_of_run_eq (run_readText hread)]
      cases hparse : parse? text with
      | some s => exact absurd ⟨some (path, s), hfile, text, hread, hparse⟩ h
      | none => exact ⟨_, by simp only [hparse]; rfl⟩

end Settings

namespace Program

/-- Whether a file describes a program. -/
def Described (t : FileTree) (workplace : List String) (path : Path) (p : Program) : Prop :=
  ∃ source, t.readText workplace path = .ok source ∧ load source = .ok p

/-- A file that describes a program is loaded as this program. -/
theorem run_loadFile_of_described {p : Program} (h : Described t workplace program p) :
    (loadFile (access workplace) program).run t = (.ok p, t) := by
  obtain ⟨source, hread, hload⟩ := h
  rw [loadFile, run_bind_of_run_eq (run_readText hread)]
  simp only [hload]
  rfl

/-- A file that describes no program is not loaded, and nothing changes. -/
theorem run_loadFile_of_not_described (h : ¬∃ p, Described t workplace program p) :
    ∃ fault, (loadFile (access workplace) program).run t = (.error fault, t) := by
  cases hread : t.readText workplace program with
  | error fault => exact ⟨_, run_bind_of_run_eq (run_readText hread) _⟩
  | ok source =>
    rw [loadFile, run_bind_of_run_eq (run_readText hread)]
    cases hload : load source with
    | ok p => exact absurd ⟨p, source, hread, hload⟩ h
    | error fault => exact ⟨_, by simp only [hload]; rfl⟩

end Program

/-! ## Writing -/

namespace FileTree

/-- Makes the directories above a path. Tells whether that worked. -/
def prepare (t : FileTree) (workplace : List String) (path : Path) : Bool × FileTree :=
  match path.parent? with
  | some directory =>
    if directory.text = "" then (true, t) else t.makeDirectories workplace directory
  | none => (true, t)

/-- Whether a text can be written to a path once the directories above it have been made. -/
def Writable (t : FileTree) (workplace : List String) (path : Path) (text : String) : Prop :=
  (t.prepare workplace path).1 = true ∧
    ((t.prepare workplace path).2.writeText workplace path text).1 = true

/-- Whether a tree has come out of another one by writing a text to a path, which leads to the given
place. The place was that of a file or free, no other entry has changed, and only directories above
the path have been added. -/
structure Writes (workplace : List String) (path : Path) (text : String) (t u : FileTree)
    (place : List String) : Prop where
  content : u.find workplace path = .ok (place, .file text.toUTF8.toList)
  replaced : t.entry? place ≠ some .directory
  kept : ∀ other e, other ≠ place → t.entry? other = some e → u.entry? other = some e
  added : ∀ other e, other ≠ place → t.entry? other = none → u.entry? other = some e →
    e = .directory ∧ ∃ q, q.Above path ∧ u.find workplace q = .ok (other, .directory)

variable {path : Path} {text : String}

/-- Making the directories above a path adds directories only, and only above the path. -/
theorem prepare_adds (t : FileTree) (workplace : List String) (path : Path) :
    AddsDirectories workplace (·.Above path) t (t.prepare workplace path).2 := by
  unfold prepare
  split
  · rename_i directory hparent
    split
    · exact .refl t
    · exact (makeDirectories_adds t workplace directory).mono fun q hq =>
        Path.above_of_parent hparent hq
  · exact .refl t

/-- A file takes its place in a tree that directories have been added to. -/
theorem AddsDirectories.writes (h : AddsDirectories workplace (·.Above path) t u)
    {place : List String} (hplace : u.entry? place ≠ some .directory)
    (hfind : (u.put place (.file text.toUTF8.toList)).find workplace path =
      .ok (place, .file text.toUTF8.toList)) :
    Writes workplace path text t (u.put place (.file text.toUTF8.toList)) place where
  content := hfind
  replaced hdirectory := hplace (h.kept place .directory hdirectory)
  kept other e hne he := by
    rw [entry?_put_of_ne u hne]
    exact h.kept other e he
  added other e hne hnone hsome := by
    rw [entry?_put_of_ne u hne] at hsome
    obtain ⟨rfl, q, hq, hdirectory⟩ := h.added other e hnone hsome
    exact ⟨rfl, q, hq, (keepsDirectories_put hplace _).find hdirectory⟩

end FileTree

namespace CommandLine

variable {path : Path} {text : String}

/-- Delivering a text writes it if the directories above the path could be made. -/
theorem run_deliver (t : FileTree) (workplace : List String) (path : Path) (text : String) :
    (deliver (access workplace) path text).run t =
      if (t.prepare workplace path).1 then
        (t.prepare workplace path).2.writeText workplace path text
      else (false, (t.prepare workplace path).2) := by
  have hready : (deliver (access workplace) path text).run t =
      (if (t.prepare workplace path).1 then (access workplace).writeText path text
        else pure false).run (t.prepare workplace path).2 := by
    unfold deliver prepare
    cases path.parent? with
    | none => rfl
    | some directory =>
      by_cases hdirectory : directory.text = ""
      · simp only [hdirectory, if_true]
        rfl
      · simp only [hdirectory, if_false]
        rfl
  rw [hready]
  split <;> rfl

/-- A text that can be written is delivered, and nothing else changes. -/
theorem run_deliver_of_writable (h : t.Writable workplace path text) :
    ∃ u place, (deliver (access workplace) path text).run t = (true, u) ∧
      Writes workplace path text t u place := by
  obtain ⟨hready, hwritten⟩ := h
  rw [run_deliver, if_pos hready]
  rcases writeText_cases (t.prepare workplace path).2 workplace path text with
    hfails | ⟨place, hwrite, hplace, hfind⟩
  · simp [hfails] at hwritten
  · exact ⟨_, place, hwrite, (prepare_adds t workplace path).writes hplace hfind⟩

/-- A text that cannot be written is not delivered. Directories may have been made for it. -/
theorem run_deliver_of_not_writable (h : ¬t.Writable workplace path text) :
    ∃ u, (deliver (access workplace) path text).run t = (false, u) ∧
      AddsDirectories workplace (·.Above path) t u := by
  refine ⟨(t.prepare workplace path).2, ?_, prepare_adds t workplace path⟩
  rw [run_deliver]
  by_cases hready : (t.prepare workplace path).1 = true
  · rw [if_pos hready]
    rcases writeText_cases (t.prepare workplace path).2 workplace path text with
      hfails | ⟨place, hwrite, -, -⟩
    · exact hfails
    · exact absurd ⟨hready, by rw [hwrite]⟩ h
  · rw [if_neg hready]

/-! ## Runs -/

/-- The options that the arguments and the settings file ask for: each one if either of them
does. -/
def optionsInForce (a : Arguments) (config : Option (Path × Settings)) : Options where
  twoTraces := a.switches.contains .twoTraces || config.any (·.2.twoTraces)
  timepoints := a.switches.contains .timepoints || config.any (·.2.timepoints)
  parallel := a.switches.contains .parallel || config.any (·.2.parallel)

/-- The output that a settings file asks for. A relative path is meant from the directory of the
file. -/
def settingsOutput : Option (Path × Settings) → Option Path
  | none => none
  | some (path, s) => s.output.map fun file =>
      if (Path.mk file).isAbsolute then ⟨file⟩ else (path.parent?.getD ⟨"."⟩).join ⟨file⟩

/-- The output in force: that of the arguments, or else that of the settings file. -/
def outputInForce (a : Arguments) (config : Option (Path × Settings)) : Option Path :=
  a.output.or (settingsOutput config)

/-- The options that a run goes by are those that are in force. -/
theorem options_resolved (a : Arguments) (config : Option (Path × Settings)) :
    options a (Settings.resolved config) = optionsInForce a config := by
  cases config <;> rfl

/-- The output that a run goes by is the one that the settings file asks for. -/
theorem output_resolved (config : Option (Path × Settings)) :
    (Settings.resolved config).output = settingsOutput config := by
  cases config with
  | none => rfl
  | some settings =>
    have hjoin (base file : Path) : base.join file =
        if file.isAbsolute then file else base.join file := by
      unfold Path.join
      split <;> rfl
    simp only [settingsOutput, ← hjoin]
    rfl

/-- Whether nothing fails before the output: the settings and the program can be read, and the text
is that of the program's conditions. -/
def Succeeds (t : FileTree) (workplace : List String) (schedule : Schedule) (a : Arguments)
    (program : Path) (config : Option (Path × Settings)) (text : String) : Prop :=
  Settings.InForce t workplace program a.config config ∧
    ∃ p, Program.Described t workplace program p ∧
      p.conditions (optionsInForce a config) schedule = .ok text

variable {schedule : Schedule} {a : Arguments} {config : Option (Path × Settings)}

/-- A run that fails before the output changes nothing. -/
theorem run_generate_of_not_succeeds
    (h : ¬∃ config text, Succeeds t workplace schedule a program config text) :
    ∃ outcome, (generate (access workplace) a program schedule).run t = (outcome, t) ∧
      outcome.stdout = "" ∧ outcome.exit = 1 := by
  rw [generate]
  by_cases hconfig : ∃ config, Settings.InForce t workplace program a.config config
  · obtain ⟨config, hconfig⟩ := hconfig
    rw [run_bind_of_run_eq (Settings.run_load_of_inForce hconfig)]
    by_cases hprogram : ∃ p, Program.Described t workplace program p
    · obtain ⟨p, hprogram⟩ := hprogram
      dsimp only
      rw [run_bind_of_run_eq (Program.run_loadFile_of_described hprogram), options_resolved]
      cases hconditions : p.conditions (optionsInForce a config) schedule with
      | ok text => exact absurd ⟨config, text, hconfig, p, hprogram, hconditions⟩ h
      | error fault =>
        refine ⟨{ exit := 1, stderr := report fault.code fault.message fault.help }, ?_, rfl, rfl⟩
        simp only [hconditions]
        rfl
    · obtain ⟨⟨fault, source⟩, hload⟩ := Program.run_loadFile_of_not_described hprogram
      exact ⟨_, run_bind_of_run_eq hload _, rfl, rfl⟩
  · obtain ⟨fault, hload⟩ := Settings.run_load_of_not_inForce hconfig
    exact ⟨_, run_bind_of_run_eq hload _, rfl, rfl⟩

/-- Prints a text, or writes it to the output. -/
def publish (workplace : List String) (text : String) : Option Path → StateM FileTree Outcome
  | none => pure { exit := 0, stdout := text }
  | some path => do
    if ← deliver (access workplace) path text then pure { exit := 0 }
    else pure { exit := 1, stderr := "cannot write " ++ path.text ++ "\n" }

/-- A run that does not fail before the output publishes its text. -/
theorem run_generate_of_succeeds (h : Succeeds t workplace schedule a program config text) :
    (generate (access workplace) a program schedule).run t =
      (publish workplace text (outputInForce a config)).run t := by
  obtain ⟨hconfig, p, hprogram, hconditions⟩ := h
  rw [generate, run_bind_of_run_eq (Settings.run_load_of_inForce hconfig)]
  dsimp only
  rw [run_bind_of_run_eq (Program.run_loadFile_of_described hprogram), options_resolved,
    output_resolved]
  simp only [hconditions, outputInForce]
  cases a.output.or (settingsOutput config) <;> rfl

/-- Publishing to a path is delivering to it. Nothing is printed, and the exit tells whether it was
written. -/
theorem run_publish_some {written : Bool}
    (h : (deliver (access workplace) path text).run t = (written, u)) :
    ∃ outcome, (publish workplace text (some path)).run t = (outcome, u) ∧
      outcome.stdout = "" ∧ outcome.exit = if written then 0 else 1 := by
  rw [publish, run_bind_of_run_eq h]
  cases written with
  | true => exact ⟨_, rfl, rfl, rfl⟩
  | false => exact ⟨_, rfl, rfl, rfl⟩

/-- What a run leaves behind. Unless it is asked for conditions, it changes nothing. If the
settings, the program or its conditions fail, it changes nothing and prints nothing. Else it prints
the conditions, or writes them to the output in force; there it adds the directories above the
output that are missing, and touches no other entry. This holds under every schedule. -/
theorem run_all_or_nothing (t : FileTree) (workplace args : List String) (schedule : Schedule)
    {outcome : Outcome} {u : FileTree}
    (hrun : (run (access workplace) args schedule).run t = (outcome, u)) :
    ((∀ a program, parse args ≠ .run a program) → u = t) ∧
    ∀ a program, parse args = .run a program →
      ((¬∃ config text, Succeeds t workplace schedule a program config text) →
        u = t ∧ outcome.stdout = "" ∧ outcome.exit = 1) ∧
      ∀ config text, Succeeds t workplace schedule a program config text →
        (outputInForce a config = none → u = t ∧ outcome.stdout = text ∧ outcome.exit = 0) ∧
        ∀ path, outputInForce a config = some path →
          outcome.stdout = "" ∧
          (t.Writable workplace path text →
            outcome.exit = 0 ∧ ∃ place, Writes workplace path text t u place) ∧
          (¬t.Writable workplace path text →
            outcome.exit = 1 ∧ AddsDirectories workplace (·.Above path) t u) := by
  constructor
  · intro hparse
    rw [run] at hrun
    cases hask : parse args with
    | run a program => exact absurd hask (hparse a program)
    | version | help | misuse =>
      simp only [hask] at hrun
      exact (congrArg Prod.snd hrun).symm
  intro a program hparse
  have hgenerate : (generate (access workplace) a program schedule).run t = (outcome, u) := by
    rw [run, hparse] at hrun
    exact hrun
  refine ⟨fun hfails => ?_, fun config text hsucceeds => ⟨fun houtput => ?_, ?_⟩⟩
  · obtain ⟨outcome', hrun', hstdout, hexit⟩ := run_generate_of_not_succeeds hfails
    obtain ⟨rfl, rfl⟩ := Prod.mk.inj (hgenerate.symm.trans hrun')
    exact ⟨rfl, hstdout, hexit⟩
  · rw [run_generate_of_succeeds hsucceeds, houtput] at hgenerate
    obtain ⟨rfl, rfl⟩ := Prod.mk.inj hgenerate
    exact ⟨rfl, rfl, rfl⟩
  -- from here on there are conditions, and a file to write them to
  intro path houtput
  rw [run_generate_of_succeeds hsucceeds, houtput] at hgenerate
  by_cases hwritable : t.Writable workplace path text
  · obtain ⟨v, place, hdeliver, hwrites⟩ := run_deliver_of_writable hwritable
    obtain ⟨outcome', hrun', hstdout, hexit⟩ := run_publish_some hdeliver
    obtain ⟨rfl, rfl⟩ := Prod.mk.inj (hgenerate.symm.trans hrun')
    exact ⟨hstdout, fun _ => ⟨hexit, place, hwrites⟩, fun h => absurd hwritable h⟩
  · obtain ⟨v, hdeliver, hadds⟩ := run_deliver_of_not_writable hwritable
    obtain ⟨outcome', hrun', hstdout, hexit⟩ := run_publish_some hdeliver
    obtain ⟨rfl, rfl⟩ := Prod.mk.inj (hgenerate.symm.trans hrun')
    exact ⟨hstdout, fun h => absurd h hwritable, fun _ => ⟨hexit, hadds⟩⟩

/-- A settings file that sends the conditions over the program they are worked out from, by way of a
directory that is missing. -/
def overwritingText : String :=
  "[output]\nfile=\"o/../p.json\"\n[semantics]\ntwo_traces=true\n"

def overwritingSettings : Settings := { output := some "o/../p.json", twoTraces := true }

def overwritingTree : FileTree :=
  ⟨⟨[(["w"], .directory), (["w", "p.json"], .file "[[[\"f\"]]]".toUTF8.toList),
    (["w", "tlv.toml"], .file overwritingText.toUTF8.toList)]⟩⟩

def overwritingRun : Outcome × FileTree :=
  (run (access ["w"]) ["p.json", "--timepoints"]).run overwritingTree

/-- The sample's settings file is the nearest one to its program, and it can be read. -/
theorem overwritingSettings_inForce : Settings.InForce overwritingTree ["w"] ⟨"p.json"⟩ none
    (some (⟨"tlv.toml"⟩, overwritingSettings)) :=
  ⟨by decide +kernel, overwritingText, by decide +kernel, by decide +kernel⟩

/-- The sample's run writes its text over the program that it has read. -/
theorem overwritingRun_replaces_program :
    ∃ a text place, parse ["p.json", "--timepoints"] = .run a ⟨"p.json"⟩ ∧
      Succeeds overwritingTree ["w"] {} a ⟨"p.json"⟩
        (some (⟨"tlv.toml"⟩, overwritingSettings)) text ∧
      overwritingTree.Writable ["w"] ⟨"o/../p.json"⟩ text ∧
      overwritingRun.1.stdout = "" ∧ overwritingRun.1.exit = 0 ∧
      Writes ["w"] ⟨"o/../p.json"⟩ text overwritingTree overwritingRun.2 place := by
  have hexit : overwritingRun.1.exit = 0 := by decide +kernel
  obtain ⟨hfails, hworks⟩ := (run_all_or_nothing overwritingTree ["w"] ["p.json", "--timepoints"] {}
    (Prod.eta overwritingRun).symm).2
    { program := some ⟨"p.json"⟩, switches := [.timepoints] } _ rfl
  -- The run ends well, so neither the conditions nor the output have failed.
  obtain ⟨config, text, hsucceeds⟩ := not_imp_comm.mp hfails fun h => by simp [hexit] at h
  obtain rfl := hsucceeds.1.unique overwritingSettings_inForce
  obtain ⟨hstdout, hwrites, hfailed⟩ := (hworks _ text hsucceeds).2 ⟨"o/../p.json"⟩ rfl
  have hwritable := not_imp_comm.mp hfailed fun h => by simp [hexit] at h
  obtain ⟨place, hplace⟩ := (hwrites hwritable).2
  exact ⟨_, text, place, rfl, hsucceeds, hwritable, hstdout, hexit, hplace⟩

end CommandLine

end TraceLogic

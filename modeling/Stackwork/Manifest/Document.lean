import Stackwork.Manifest.Basic
import Stackwork.Text.Letters
import Stackwork.Text.Quoted
import Stackwork.Toml.Read
import Stackwork.Yaml.Read

/-!
# Manifests as documents

A manifest is written in one of two formats. Either way it is a table of sections, which
are tables of settings; settings and sections that are not known are passed over. The
formats differ in how keys match, in what may stand for a text, and in what an empty
place means.
-/
namespace Stackwork.Manifest

/-- How settings are taken from the values of a format. A result inside says what the
setting is, if the value says anything; nothing at all means that the value is of the
wrong sort. -/
structure View (V : Type) where
  /-- The entries of a table. -/
  entries : V → Option (List (String × V))
  text : V → Option (Option String)
  integer : V → Option (Option Int)
  boolean : V → Option (Option Bool)
  /-- Whether a key is another spelling of a name. -/
  spells : String → String → Bool

namespace View

variable {V S : Type}

/-- The name that a key stands for: itself if it is one, or the first that it matches. -/
def name (view : View V) (names : List String) (key : String) : Option String :=
  if names.contains key then some key else names.find? (view.spells · key)

/-- Take the settings of a table one after the other. -/
def settings (view : View V) (names : List String) (set : String → V → S → Option S) (start : S)
    (v : V) : Option S := do
  (← view.entries v).foldlM (fun s (key, v) =>
    match view.name names key with
    | some name => set name v s
    | none => some s) start

def project (view : View V) (s : ProjectSection) : V → Option ProjectSection :=
  view.settings ["name", "version"] (fun name v s => do
    let t ← view.text v
    match name with
    | "name" => return { s with name := t.getD s.name }
    | _ => return { s with version := t.getD s.version }) s

def machine (view : View V) (s : MachineSection) : V → Option MachineSection :=
  view.settings ["heap-size", "stack-size", "trace"] (fun name v s => do
    match name with
    | "heap-size" => return { s with heapSize := (← view.integer v).getD s.heapSize }
    | "stack-size" => return { s with stackSize := (← view.integer v).getD s.stackSize }
    | _ => return { s with trace := (← view.boolean v).getD s.trace }) s

def log (view : View V) (s : LogSection) : V → Option LogSection :=
  view.settings ["verbosity", "file"] (fun name v s => do
    match name with
    | "verbosity" => return { s with verbosity := (← view.integer v).getD s.verbosity }
    | _ => return { s with file := (← view.text v).getD s.file }) s

def store (view : View V) (s : StoreSection) : V → Option StoreSection :=
  view.settings ["path"] (fun _ v s => do return { s with path := (← view.text v).getD s.path }) s

/-- All sections of a manifest. -/
def manifest (view : View V) : V → Option Manifest :=
  view.settings ["project", "vm", "log", "store"] (fun name v m => do
    match name with
    | "project" => return { m with project := ← view.project m.project v }
    | "vm" => return { m with machine := ← view.machine m.machine v }
    | "log" => return { m with log := ← view.log m.log v }
    | _ => return { m with store := ← view.store m.store v }) {}

end View

/-- Settings in TOML: values have exactly the sort that is asked for, and the case of
letters in keys does not matter. -/
def tomlView : View Toml.Value where
  entries
    | .table _ fields => some fields
    | _ => none
  text
    | .text s => some (some s)
    | _ => none
  integer
    | .integer n => some (some n)
    | _ => none
  boolean
    | .boolean b => some (some b)
    | _ => none
  spells := Text.spells

/-- Whether two keys count as the same: scalars by their texts, all else by its sort. -/
def sameKey : Yaml.Node → Yaml.Node → Bool
  | .scalar _ a, .scalar _ b => a == b
  | .sequence _, .sequence _ | .mapping _, .mapping _ => true
  | _, _ => false

/-- Whether no key comes twice. -/
def distinctKeys : List (Yaml.Node × Yaml.Node) → Bool
  | [] => true
  | (k, _) :: rest => !rest.any (fun (l, _) => sameKey k l) && distinctKeys rest

/-- The entries of a mapping; keys are scalars, and a key that means nothing is passed
over. -/
def yamlEntries (fields : List (Yaml.Node × Yaml.Node)) : Option (List (String × Yaml.Node)) :=
  fields.foldrM (fun (k, v) rest =>
    match k with
    | .scalar plain s =>
      match plain, Yaml.meaning s with
      | true, .nothing => some rest
      | _, _ => some ((s, v) :: rest)
    | _ => none) []

/-- A float cut to an integer of 64 bits. What is out of range counts as the least one. -/
def truncated (x : Float) : Int := if x < 9223372036854775808.0 then x.toInt64.toInt else -Nat.pow 2 63

/-- Settings in YAML. An empty place leaves a setting as it is, any scalar can be a text,
and a float that is not too large can be an integer. Some words count as truth values. -/
def yamlView : View Yaml.Node where
  entries
    | .mapping fields => if distinctKeys fields then yamlEntries fields else none
    | n =>
      match n.meaning? with
      | some .nothing => some []
      | _ => none
  text n :=
    match n, n.meaning? with
    | _, some .nothing => some none
    | .scalar _ s, _ => some (some s)
    | _, _ => none
  integer n :=
    match n.meaning? with
    | some .nothing => some none
    | some (.integer n) => if n < Nat.pow 2 63 then some (some n) else none
    | some (.float x) => if x ≤ 9223372036854775808.0 then some (some (truncated x)) else none
    | _ => none
  boolean n :=
    match n, n.meaning? with
    | _, some .nothing => some none
    | _, some (.boolean b) => some (some b)
    | .scalar _ s, some .text =>
      if s ∈ ["y", "Y", "yes", "on"] then some (some true)
      else if s ∈ ["n", "N", "no", "off"] then some (some false)
      else none
    | _, _ => none
  spells _ _ := false

/-- The formats of manifests. -/
inductive Format where
  | toml
  | yaml
deriving DecidableEq

def Format.name : Format → String
  | toml => "toml"
  | yaml => "yaml"

/-- Why a text is no manifest. -/
inductive ParseError where
  | unknownFormat (name : String)
  | malformed
deriving DecidableEq

def ParseError.message : ParseError → String
  | unknownFormat name => "unknown manifest format: " ++ Text.quoted name
  | malformed => "malformed manifest"

/-- Read a manifest in a format. -/
def parse (format : Format) (text : String) : Except ParseError Manifest :=
  let read : Option Manifest := match format with
    | .toml => do tomlView.manifest (.table false (← Toml.parse? text))
    | .yaml => do yamlView.manifest (← Yaml.parse? text)
  match read with
  | some m => .ok m.withDefaults
  | none => .error .malformed

/-- Read a manifest in the format with a name. -/
def parseNamed (format text : String) : Except ParseError Manifest :=
  match [Format.toml, .yaml].find? (·.name = format) with
  | some f => parse f text
  | none => .error (.unknownFormat format)

end Stackwork.Manifest

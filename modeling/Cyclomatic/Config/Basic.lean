import Cyclomatic.Report.Risk

/-! # Configuration

A configuration is read from a mapping whose values may be of any kind; each
setting keeps the value it was given. Settings come flat or in sections. The
mapping is made flat step by step: the analysis section replaces what stands
beside it, then the entries of a section are set under the flat names of their
settings, and what has a short name under the long one. Only flat names are
read in the end.
-/

namespace Cyclomatic

structure OutputSettings where
  format : Value := .text "text"
  outputFile : Value := .null
  verbose : Value := .bool false
  colour : Value := .bool true

/-- The output section: settings, or a value that is no mapping and is kept as it is. -/
inductive Output where
  | settings (s : OutputSettings)
  | other (v : Value)

def defaultExclusions : List String :=
  ["node_modules/**", ".git/**", "dist/**", "build/**", "coverage/**", "*.min.js", "*.d.ts"]

structure Config where
  target : Value := .text "."
  exclusions : Value := .texts defaultExclusions
  inclusions : Value := .null
  maxFileSize : Value := .int 10485760
  maxWorkers : Value := .int 4
  high : Value := .int Risk.defaultHigh
  veryHigh : Value := .int Risk.defaultVeryHigh
  exportThreshold : Value := .num (.real .zero)
  exportDirectory : Value := .text "complexity-metrics"
  output : Output := .settings {}

namespace OutputSettings

def names : List String := ["format", "output_file", "verbose", "color"]

/-- Whether a key is text at all. -/
def isText : Value → Bool
  | .text _ => true
  | _ => false

def ofEntries (entries : Entries) : Except Failure OutputSettings :=
  let default : OutputSettings := {}
  if !entries.all (isText ·.1) then .error .optionNotText
  else
    match entries.find? fun (k, _) => k.display ∉ names with
    | some (k, _) => .error (.unknownOption k.display)
    | none =>
        .ok { format := (entries.field? "format").getD default.format
              outputFile := (entries.field? "output_file").getD default.outputFile
              verbose := (entries.field? "verbose").getD default.verbose
              colour := (entries.field? "color").getD default.colour }

def toValue (s : OutputSettings) : Value :=
  .record
    [("format", s.format), ("output_file", s.outputFile), ("verbose", s.verbose),
     ("color", s.colour)]

end OutputSettings

def Output.toValue : Output → Value
  | .settings s => s.toValue
  | .other v => v

namespace Config

/-- The mapping with the entries of its analysis section taken over. -/
def merge (data : Entries) : Entries :=
  match data.field? "analysis" with
  | some (.map inner) => (data.erase (.text "analysis")).update inner
  | _ => data

/-- The entries of a section; what is no mapping has none. -/
def sectionEntries (data : Entries) (name : String) : Entries :=
  match data.field? name with
  | some (.map entries) => entries
  | _ => []

/-- Set what a section holds under a key, if it holds anything, under the flat name that belongs
to the key. -/
def assign (inner data : Entries) (key : String × String) : Entries :=
  match inner.field? key.1 with
  | some v => data.insert (.text key.2) v
  | none => data

/-- Take a section out of a mapping, and set what it holds under flat names. -/
def flatten (name : String) (keys : List (String × String)) (data : Entries) : Entries :=
  keys.foldl (assign (sectionEntries data name)) (data.erase (.text name))

/-- Set what a mapping holds under a short name under the long one. -/
def rename (short long : String) (data : Entries) : Entries :=
  match data.field? short with
  | some v => (data.erase (.text short)).insert (.text long) v
  | none => data

/-- The keys of the thresholds section, each with the flat name of its setting. -/
def thresholdKeys : List (String × String) :=
  [("high", "high_complexity_threshold"), ("very_high", "very_high_complexity_threshold")]

/-- The keys of the export section, each with the flat name of its setting. -/
def exportKeys : List (String × String) :=
  [("threshold", "export_threshold"), ("directory", "export_directory")]

/-- The mapping without sections, but for the output section. -/
def flattened (given : Entries) : Entries :=
  flatten "export" exportKeys (flatten "thresholds" thresholdKeys (merge given))

/-- The mapping without short names. -/
def unabbreviated (data : Entries) : Entries :=
  rename "include" "include_patterns" (rename "exclude" "exclude_patterns" data)

def outputOf (data : Entries) : Except Failure Output :=
  match data.field? "output" with
  | some (.map entries) => return .settings (← OutputSettings.ofEntries entries)
  | some v => .ok (.other v)
  | none => .ok (.settings {})

/-- The thresholds must be in order, and there must be a worker. -/
def check (c : Config) : Except Failure Config := do
  if ← orFail (c.high.compare .greater c.veryHigh) then throw .thresholdOrder
  if ← orFail (c.maxWorkers.compare .less (.int 1)) then throw .workerCount
  return c

/-- The configuration that a flat mapping spells out, before it is checked. What is no setting is
passed over. -/
def reading (data : Entries) (output : Output) : Config :=
  let default : Config := {}
  { target := (data.field? "target").getD default.target
    exclusions := (data.field? "exclude_patterns").getD default.exclusions
    inclusions := (data.field? "include_patterns").getD default.inclusions
    maxFileSize := (data.field? "max_file_size").getD default.maxFileSize
    maxWorkers := (data.field? "max_workers").getD default.maxWorkers
    high := (data.field? "high_complexity_threshold").getD default.high
    veryHigh := (data.field? "very_high_complexity_threshold").getD default.veryHigh
    exportThreshold := (data.field? "export_threshold").getD default.exportThreshold
    exportDirectory := (data.field? "export_directory").getD default.exportDirectory
    output }

/-- The output section is read before short names are spelled out. -/
def ofEntries (given : Entries) : Except Failure Config := do
  let data := flattened given
  let output ← outputOf data
  check (reading (unabbreviated data) output)

def toEntries (c : Config) : List (String × Value) :=
  [("target", c.target), ("exclude_patterns", c.exclusions), ("include_patterns", c.inclusions),
   ("max_file_size", c.maxFileSize), ("max_workers", c.maxWorkers),
   ("high_complexity_threshold", c.high), ("very_high_complexity_threshold", c.veryHigh),
   ("export_threshold", c.exportThreshold), ("export_directory", c.exportDirectory),
   ("output", c.output.toValue)]

def toValue (c : Config) : Value := .record c.toEntries

/-- The text of a configuration file that gives the standard settings. -/
def standardText : String :=
  "\n".intercalate
    ["analysis:", "  target: .", "  exclude:", "  - node_modules/**", "  - .git/**", "  - dist/**",
     "  - build/**", "  - coverage/**", "  - '*.min.js'", "  - '*.d.ts'",
     "  max_file_size: 10485760", "  max_workers: 4", "thresholds:", "  high: 11",
     "  very_high: 21", "export:", "  threshold: 0", "  directory: complexity-metrics", "output:",
     "  format: text", "  verbose: false", "  color: true", ""]

end Config

end Cyclomatic

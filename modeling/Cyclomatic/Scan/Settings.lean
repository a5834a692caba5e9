import Cyclomatic.Config.Basic

/-! # Scan settings

What a scan of a project goes by. Like those of a configuration, the values may
be of any kind; they are looked at when they are needed.
-/

namespace Cyclomatic

def defaultIgnored : List String :=
  ["node_modules/**", ".git/**", "dist/**", "build/**", "out/**", "coverage/**", ".next/**",
   "*.min.js", "*.bundle.js", "*.d.ts"]

structure ScanSettings where
  maxFileSize : Value := .int 10485760
  maxWorkers : Value := .int 4
  ignored : Value := .texts defaultIgnored
  included : Value := .null
  high : Value := .int Risk.defaultHigh
  veryHigh : Value := .int Risk.defaultVeryHigh

namespace ScanSettings

def ofEntries (entries : Entries) : ScanSettings :=
  let default : ScanSettings := {}
  { maxFileSize := (entries.field? "max_file_size").getD default.maxFileSize
    maxWorkers := (entries.field? "max_workers").getD default.maxWorkers
    ignored := (entries.field? "ignore_patterns").getD default.ignored
    included := (entries.field? "include_patterns").getD default.included
    high := (entries.field? "high_complexity_threshold").getD default.high
    veryHigh := (entries.field? "very_high_complexity_threshold").getD default.veryHigh }

def toEntries (s : ScanSettings) : List (String × Value) :=
  [("max_file_size", s.maxFileSize), ("max_workers", s.maxWorkers),
   ("ignore_patterns", s.ignored), ("include_patterns", s.included),
   ("high_complexity_threshold", s.high), ("very_high_complexity_threshold", s.veryHigh)]

def toValue (s : ScanSettings) : Value := .record s.toEntries

end ScanSettings

def Config.scanSettings (c : Config) : ScanSettings where
  maxFileSize := c.maxFileSize
  maxWorkers := c.maxWorkers
  ignored := c.exclusions
  included := c.inclusions
  high := c.high
  veryHigh := c.veryHigh

end Cyclomatic

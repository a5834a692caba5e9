import Cyclomatic.Path
import Cyclomatic.Text.Ascii

/-! # Languages and dialects

A file is JavaScript or TypeScript by the extension of its name. The grammar
comes in three dialects, chosen by the suffix of its last part.
-/

namespace Cyclomatic

inductive Language where
  | javascript
  | typescript
  deriving DecidableEq, Repr

inductive Dialect where
  | javascript
  | typescript
  | tsx
  deriving DecidableEq, Repr

namespace Dialect

def toText : Dialect → String
  | .javascript => "javascript"
  | .typescript => "typescript"
  | .tsx => "tsx"

def ofText? : String → Option Dialect
  | "javascript" => some .javascript
  | "typescript" => some .typescript
  | "tsx" => some .tsx
  | _ => none

def language : Dialect → Language
  | .javascript => .javascript
  | .typescript | .tsx => .typescript

def ofSuffix? : String → Option Dialect
  | ".js" | ".jsx" | ".mjs" | ".cjs" => some .javascript
  | ".ts" | ".mts" | ".cts" => some .typescript
  | ".tsx" => some .tsx
  | _ => none

/-- The dialect of a file by its name, if its suffix tells. -/
def ofPath? (path : String) : Option Dialect := ofSuffix? (lowerText (Path.suffix path))

end Dialect

namespace Language

def toText : Language → String
  | .javascript => "javascript"
  | .typescript => "typescript"

/-- The languages there is a parser for, under the names they go by. -/
def ofName? (name : String) : Option Language :=
  match lowerText name with
  | "javascript" | "js" | "jsx" => some .javascript
  | "typescript" | "ts" | "tsx" => some .typescript
  | _ => none

def ofExtension? : String → Option Language
  | ".js" | ".jsx" | ".mjs" | ".cjs" => some .javascript
  | ".ts" | ".tsx" | ".mts" | ".cts" => some .typescript
  | _ => none

/-- The language of a file by its name. -/
def detect? (path : String) : Option Language := ofExtension? (lowerText (Path.extension path))

end Language

end Cyclomatic

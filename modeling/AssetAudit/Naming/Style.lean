import AssetAudit.Naming.Expression

/-!
# Naming styles

The five conventions for writing a name of several words.  A style is an expression for the bare
name; what a file name needs behind it is added by `Naming.Pattern`.

A configuration chooses a style by a *selector*, the number of the style in `Style.all`.  A selector
that belongs to no style means the first one, so that every configuration has a meaning.
-/

namespace AssetAudit
namespace Naming

/-- The conventions for names of several words. -/
inductive Style where
  /-- Every word starts with a capital: `ExampleOfNaming`. -/
  | pascalCase
  /-- Every word but the first starts with a capital: `exampleOfNaming`. -/
  | camelCase
  /-- Small letters, words apart by underscores: `example_of_naming`. -/
  | snakeCase
  /-- Small letters, words apart by hyphens: `example-of-naming`. -/
  | kebabCase
  /-- Capitalised words, apart by underscores: `Example_Of_Naming`. -/
  | pascalUnderscore
  deriving DecidableEq, Repr

namespace Style

/-- Every style, in the order of the selectors. -/
def all : List Style :=
  [.pascalCase, .camelCase, .snakeCase, .kebabCase, .pascalUnderscore]

/-- The number by which configurations choose the style. -/
def selector : Style → UInt8
  | .pascalCase => 0
  | .camelCase => 1
  | .snakeCase => 2
  | .kebabCase => 3
  | .pascalUnderscore => 4

/-- The style that a selector chooses. -/
def ofSelector (selector : UInt8) : Style :=
  all[selector.toNat]?.getD .pascalCase

@[simp] theorem ofSelector_selector (s : Style) : ofSelector s.selector = s := by
  cases s <;> rfl

/-- The name of the style. -/
def name : Style → String
  | .pascalCase => "PascalCase"
  | .camelCase => "CamelCase"
  | .snakeCase => "SnakeCase"
  | .kebabCase => "KebabCase"
  | .pascalUnderscore => "PascalUnderscore"

/-- The style of a name. -/
def ofName? (name : String) : Option Style :=
  all.find? (·.name == name)

@[simp] theorem ofName?_name (s : Style) : ofName? s.name = some s := by
  cases s <;> rfl

/-- A name written in the style, which tells a user what is expected. -/
def sample : Style → String
  | .pascalCase => "ExampleOfNaming"
  | .camelCase => "exampleOfNaming"
  | .snakeCase => "example_of_naming"
  | .kebabCase => "example-of-naming"
  | .pascalUnderscore => "Example_Of_Naming"

/-! ## Grammars -/

open Expression CharClass

/-- A word after its first letter: small letters and digits. -/
def wordRest : CharClass := lower.union digit

/-- A word that starts with a capital. -/
def capitalised : Expression := .seq (.one upper) (many (.one wordRest))

/-- A word that starts with a small letter. -/
def uncapitalised : Expression := .seq (.one lower) (many (.one wordRest))

/-- Words of small letters and digits with at most one separator between two of them. -/
def separated (separator : Char) : Expression :=
  .seq uncapitalised
    (many (.seq (optional (.one (single separator))) (oneOrMore (.one wordRest))))

/-- The names that a style allows. -/
def grammar : Style → Expression
  | .pascalCase => .seq capitalised (many capitalised)
  | .camelCase => .seq uncapitalised (many capitalised)
  | .snakeCase => separated '_'
  | .kebabCase => separated '-'
  | .pascalUnderscore =>
      .seq capitalised
        (many (.seq (optional (.one (single '_')))
          (.seq (.one (upper.union digit)) (oneOrMore (.one wordRest)))))

/-- The grammar as a pattern text; it is anchored at the start of the name and open at its end. -/
def grammarText (s : Style) : String :=
  "^" ++ s.grammar.pattern

end Style

end Naming
end AssetAudit

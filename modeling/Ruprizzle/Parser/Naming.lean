namespace Ruprizzle.Naming

def IRREGULAR : List (String × String) :=
  [("person", "people"), ("child", "children"), ("man", "men"), ("woman", "women"),
    ("tooth", "teeth"), ("foot", "feet"), ("mouse", "mice"), ("goose", "geese"),
    ("datum", "data"), ("medium", "media"), ("analysis", "analyses"), ("index", "indexes")]

def UNCOUNTABLE : List String :=
  ["equipment", "information", "series", "species", "news", "data", "metadata", "staff",
    "sheep", "fish", "money", "audio", "settings"]

-- The output is built in reverse, so its last character is its head.
private def snakeStep (out : List Char) (prev : Option Char) (c : Char)
    (next : Option Char) : List Char :=
  let separated := match out with
    | [] => []
    | '_' :: rest => '_' :: rest
    | rest => '_' :: rest
  if c = '_' ∨ c = '-' ∨ c = ' ' then separated
  else
    let boundary := c.isUpper && match prev with
      | none => false
      | some p => p.isLower || p.isDigit || (p.isUpper && (next.map Char.isLower).getD false)
    c.toLower :: (if boundary then separated else out)

private def snakeLoop (out : List Char) (prev : Option Char) : List Char → List Char
  | [] => out
  | c :: rest => snakeLoop (snakeStep out prev c rest.head?) (some c) rest

-- HTTPHeader becomes http_header and v2Endpoint becomes v2_endpoint.
-- Identifiers of the grammar are ASCII, where Char.toLower is to_lowercase.
def snakeCase (input : String) : String := String.ofList (snakeLoop [] none input.toList).reverse

private def endsWith (suffix word : List Char) : Bool := suffix.reverse.isPrefixOf word.reverse

-- A word with no underscore left in it.
private def pluralizeWord (word : String) : String :=
  if word = "" then ""
  else if UNCOUNTABLE.contains word then word
  else match IRREGULAR.find? (fun entry => entry.1 = word) with
    | some entry => entry.2
    | none =>
        let chars := word.toList
        let sibilant := ["s", "x", "z", "ch", "sh"].any fun suffix => endsWith suffix.toList chars
        let consonantY := endsWith ['y'] chars && match chars.reverse[1]? with
          | some p => !("aeiou".toList.contains p)
          | none => false
        if sibilant then word ++ "es"
        else if consonantY then String.ofList chars.dropLast ++ "ies"
        else word ++ "s"

-- Only the final word of a compound is inflected: blog_post gives blog_posts.
def pluralize (word : String) : String :=
  if word = "" then ""
  else
    let lower := String.ofList (word.toList.map Char.toLower)
    if UNCOUNTABLE.contains lower then lower
    else match IRREGULAR.find? (fun entry => entry.1 = lower) with
      | some entry => entry.2
      | none =>
          if lower.toList.contains '_' then
            let tail := (lower.toList.reverse.takeWhile (· ≠ '_')).reverse
            let head := lower.toList.take (lower.toList.length - tail.length - 1)
            String.ofList head ++ "_" ++ pluralizeWord (String.ofList tail)
          else pluralizeWord lower

def tableName (model : String) : String := pluralize (snakeCase model)

def columnName (field : String) : String := snakeCase field

def enumTypeName (name : String) : String := snakeCase name

def indexName (table : String) (columns : List String) : String :=
  table ++ "_" ++ "_".intercalate columns ++ "_idx"

def uniqueName (table : String) (columns : List String) : String :=
  table ++ "_" ++ "_".intercalate columns ++ "_key"

def foreignKeyName (table : String) (columns : List String) : String :=
  table ++ "_" ++ "_".intercalate columns ++ "_fkey"

def RUST_KEYWORDS : List String :=
  ["as", "break", "const", "continue", "crate", "dyn", "else", "enum", "extern", "false", "fn",
    "for", "if", "impl", "in", "let", "loop", "match", "mod", "move", "mut", "pub", "ref",
    "return", "self", "Self", "static", "struct", "super", "trait", "true", "type", "unsafe",
    "use", "where", "while", "async", "await", "box", "become", "do", "final", "macro",
    "override", "priv", "try", "typeof", "unsized", "virtual", "yield"]

def isRustKeyword (name : String) : Bool := RUST_KEYWORDS.contains name

example : ["User", "HTTPHeader", "v2Endpoint", "already_snake"].map snakeCase =
    ["user", "http_header", "v2_endpoint", "already_snake"] := by decide

example : ["BlogPost", "Category", "Address", "Person", "Series"].map tableName =
    ["blog_posts", "categories", "addresses", "people", "series"] := by decide

end Ruprizzle.Naming

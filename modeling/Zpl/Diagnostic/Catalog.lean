import Zpl.Diagnostic

/-! The catalog of diagnostic codes: for each code the severity it is reported
with and an explanation for people. -/

namespace Zpl.Diagnostic

structure CatalogEntry where
  code : String
  severity : Severity
  explanation : String

def catalog : List CatalogEntry :=
  [⟨"ZPL0001", .error,
      "The tokenizer found characters that are not part of a command, a parameter list, " ++
      "field data, a comment, or whitespace. Every ZPL instruction starts with the command " ++
      "marker (default '^'); text outside a command is skipped."⟩,
   ⟨"ZPL0002", .error,
      "A command marker must be followed immediately by a command code made of uppercase " ++
      "letters, digits, or '@' (for example ^FO or ^B3). The marker was skipped."⟩,
   ⟨"ZPL0003", .error,
      "A '/*' block comment was opened but no matching '*/' was found before the end of " ++
      "input. The rest of the input was treated as comment text."⟩,
   ⟨"ZPL0101", .error,
      "A command's grammar required a token that was not present. The parser discarded " ++
      "input up to the next line break or command marker and resumed from there."⟩,
   ⟨"ZPL0102", .error,
      "The command requires more positional parameters than were given (for example ^FO " ++
      "needs both x and y). The command was still produced, with missing values set to " ++
      "their defaults."⟩,
   ⟨"ZPL0201", .warning,
      "Only a subset of ZPL commands is parsed into typed nodes. Other commands are " ++
      "preserved as generic nodes with their parameters in source order and do not affect " ++
      "parsing of the rest of the label."⟩,
   ⟨"ZPL0202", .warning,
      "^FS closes a field opened by ^FD or a barcode's field data. This ^FS did not follow " ++
      "any field data and was kept as a generic node."⟩]

def lookup? (code : String) : Option CatalogEntry :=
  catalog.find? fun entry => entry.code == code

/-- The explanation of a code, if the catalog has it. -/
def explain? (code : String) : Option String :=
  (lookup? code).map CatalogEntry.explanation

/-- The severity a code is reported with, if the catalog has it. -/
def severity? (code : String) : Option Severity :=
  (lookup? code).map CatalogEntry.severity

end Zpl.Diagnostic

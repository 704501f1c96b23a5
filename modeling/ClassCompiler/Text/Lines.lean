/-!
# Lines

A text of lines ends every one of them, the last one too.
-/

namespace ClassCompiler
namespace Text

/-- Lines as a text. -/
def unlines (lines : List String) : String :=
  String.join (lines.map fun line => line ++ "\n")

end Text
end ClassCompiler

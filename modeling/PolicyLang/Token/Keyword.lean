import PolicyLang.Token.Basic

/-!
# Keywords

Which words are not names. Categories may be written in any case, all other keywords in lower case
only.
-/

namespace PolicyLang.TokenKind

/-- The keywords that have exactly one spelling. -/
def reserved : List (String × TokenKind) :=
  [("policy", kwPolicy), ("rule", kwRule), ("import", kwImport), ("priority", kwPriority),
   ("when", kwWhen), ("then", kwThen), ("to", kwTo),
   ("deny", verb .deny), ("allow", verb .allow), ("escalate", verb .escalate),
   ("route", verb .route),
   ("and", kwAnd), ("or", kwOr), ("not", kwNot), ("true", boolean true), ("false", boolean false)]

/-- The category a word spells when the case of ASCII letters is ignored. -/
def categoryOf? (word : String) : Option Category :=
  Category.all.find? fun c => c.name.toList == word.toList.map Char.toLower

def ofWord? (word : String) : Option TokenKind :=
  (reserved.lookup word).or ((categoryOf? word).map category)

/-- A word that spells no keyword is a name. -/
def ofWord (word : String) : TokenKind := (ofWord? word).getD ident

end PolicyLang.TokenKind

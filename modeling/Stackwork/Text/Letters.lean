/-!
# Letter case

Names that may be written with capital or small letters.
-/
namespace Stackwork.Text

/-- The small form of a letter that is an ASCII letter in some case. Besides the ASCII
capitals these are the long s and the kelvin sign. -/
def smallLetter (c : Char) : Char :=
  if c = 'ſ' then 's' else if c = 'K' then 'k' else c.toLower

/-- Whether a text spells an ASCII name, whatever the case of its letters. -/
def spells (name text : String) : Bool := name.map smallLetter == text.map smallLetter

end Stackwork.Text

/-!
# Texts

Message texts.  A text that is shown ends before its first NUL character.
-/

namespace Clustering

/-- What is shown of a text: the part before its first NUL character. -/
def shown (s : String) : String := String.ofList (s.toList.takeWhile (· ≠ '\x00'))

end Clustering

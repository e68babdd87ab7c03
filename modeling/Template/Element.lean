namespace Template.Element

def voidNames : List String := [
  "area", "base", "br", "col", "embed", "hr", "img", "input", "keygen", "link", "meta",
  "param", "source", "track", "wbr"]

def rawTextNames : List String := [
  "iframe", "noembed", "noframes", "noscript", "script", "style", "textarea", "title", "xmp"]

def isVoid (name : String) : Bool := voidNames.contains name

def isRawText (name : String) : Bool := rawTextNames.contains name

theorem isVoid_eq_false_of_isRawText {name : String} (h : isRawText name = true) :
    isVoid name = false := by
  simp only [isRawText, List.contains_iff_mem, rawTextNames, List.mem_cons,
    List.not_mem_nil, or_false] at h
  rcases h with rfl | rfl | rfl | rfl | rfl | rfl | rfl | rfl | rfl <;> decide

def ns? (name : String) : Option String :=
  let cs := name.toList
  if ':' ∈ cs then some (String.ofList (cs.takeWhile (· ≠ ':'))) else none

end Template.Element

import PageRouting.Text

/-!
# `PageRouting/Url.lean` — URLs put together from fragments

Fragments are joined by slashes and every run of slashes becomes one; then the first `:/` gets its second slash back, so
that a scheme survives.
-/

set_option autoImplicit false

namespace PageRouting.Url

/-- Puts the second slash behind the first `:/`. -/
def restoreScheme : Text → Text
  | ':' :: '/' :: rest => ':' :: '/' :: '/' :: rest
  | [] => []
  | c :: cs => c :: restoreScheme cs

/-- The fragments as one URL. -/
def join (fragments : List Text) : Text :=
  restoreScheme (Text.squeeze '/' (Text.join '/' fragments))

example : join ["http://a.b/".toList, "/c".toList] = "http://a.b/c".toList := by decide

end PageRouting.Url

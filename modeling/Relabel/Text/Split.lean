
set_option autoImplicit false

namespace Relabel.Text

def split (separator : Char) (text : List Char) : List (List Char) :=
  let (done, part) := text.foldl
    (fun (done, part) c => if c = separator then (part.reverse :: done, []) else (done, c :: part))
    (([] : List (List Char)), ([] : List Char))
  (part.reverse :: done).reverse

end Relabel.Text

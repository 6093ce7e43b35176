import ChomskyNormalForm.Samples

open ChomskyNormalForm in
def main (args : List String) : IO UInt32 := do
  match args with
  | ["read"] => IO.print Samples.reading; return 0
  | ["normalize"] => IO.print Samples.normalizing; return 0
  | _ => IO.eprintln "usage: read | normalize"; return 2

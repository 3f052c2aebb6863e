import PairingV2.Lib.Prog

/-!
# `bind_front`

The closures of `bind_front` over the variables of a caller, the copies that they capture and the
callable objects, beside the `std::bind_front` that they stand for. There are two differences: the
lambda has a deduced return type, so what is called yields a value even where the callable yields a
reference, and it copies the arguments that `std::bind_front` moves from (`bindFront_iff`).
-/

namespace PairingV2

namespace Util

/-- An argument or a result: an object and its value category. A `constant` is an lvalue of an
object that is not changed; all there is to it is its value. -/
inductive Operand (V : Type) where
  | lvalue (x : ℕ)
  | xvalue (x : ℕ)
  | constant (v : V)
  | prvalue (v : V)
  deriving DecidableEq

/-- What an invocation yields, or the exception it throws. -/
abbrev Yield (V : Type) := Except V (Operand V)

/-- A callable object has a state, which an invocation may change even through a constant reference
(`mutable` members). What it yields for its arguments, and what it leaves of its state and of the
variables. -/
abbrev Fn (F V : Type) := F → List (Operand V) → (ℕ → V) → Yield V × F × (ℕ → V)

/-- The variables of the caller, and the invocations of the callable so far. -/
structure Caller (V : Type) where
  vars : ℕ → V
  invocations : List (List (Operand V))

/-- The caller, and the state of one callable object. -/
structure WithFn (F V : Type) extends Caller V where
  fn : F

/-- The objects that closures have captured are the cells below `size`, and the callable objects
those below `fnCount`. -/
structure World (F V : Type) extends Caller V where
  cells : ℕ → V
  size : ℕ
  fns : ℕ → F
  fnCount : ℕ

variable {F V : Type}

namespace Operand

def read (vars : ℕ → V) : Operand V → V
  | .lvalue x => vars x
  | .xvalue x => vars x
  | .constant v => v
  | .prvalue v => v

/-- The variables after an object was constructed from the operand. -/
def constructFrom (moved : V → V) (vars : ℕ → V) : Operand V → ℕ → V
  | .lvalue _ => vars
  | .xvalue x => Function.update vars x (moved (vars x))
  | .constant _ => vars
  | .prvalue _ => vars

end Operand

def WithFn.invoke (f : Fn F V) (args : List (Operand V)) (s : WithFn F V) : Yield V × WithFn F V :=
  let x := f s.fn args s.vars
  (x.1, ⟨⟨x.2.2, s.invocations ++ [args]⟩, x.2.1⟩)

namespace World

/-- The caller with the callable object `k`. -/
def withFn (w : World F V) (k : ℕ) : WithFn F V := ⟨w.toCaller, w.fns k⟩

def put (w : World F V) (k : ℕ) (s : WithFn F V) : World F V :=
  { w with toCaller := s.toCaller, fns := Function.update w.fns k s.fn }

/-- A new cell. -/
def store (w : World F V) (v : V) : World F V :=
  { w with cells := Function.update w.cells w.size v, size := w.size + 1 }

/-- A new callable object. -/
def storeFn (w : World F V) (a : F) : World F V :=
  { w with fns := Function.update w.fns w.fnCount a, fnCount := w.fnCount + 1 }

end World

/-! ## The closure -/

/-- A callable object, or a closure: the callable and the cells it has captured. -/
inductive Callable where
  | fn (k : ℕ)
  | closure (capturedF : Callable) (frontArgs : List ℕ)

/-- An argument in the body of a closure. -/
inductive Arg (V : Type) where
  | captured (k : ℕ)
  | forwarded (x : Operand V)

def World.operand (w : World F V) : Arg V → Operand V
  | .captured k => .constant (w.cells k)
  | .forwarded x => x

def captureAll : List V → World F V → List ℕ × World F V
  | [], w => ([], w)
  | v :: vs, w =>
    let x := captureAll vs (w.store v)
    (w.size :: x.1, x.2)

/-- A callable that is copied or moved has objects of its own. -/
def Callable.copy : Callable → World F V → Callable × World F V
  | .fn k, w => (.fn w.fnCount, w.storeFn (w.fns k))
  | .closure g ks, w =>
    let x := g.copy w
    let y := captureAll (ks.map x.2.cells) x.2
    (.closure x.1 y.1, y.2)

/-- `front_args...` names the arguments, so that each is copied, whatever its value category. -/
def bindFront (f : Callable) (frontArgs : List (Operand V)) (w : World F V) :
    Callable × World F V :=
  let x := f.copy w
  let y := captureAll (frontArgs.map (Operand.read w.vars)) x.2
  (.closure x.1 y.1, y.2)

section Call

variable (f : Fn F V) (moved : V → V)

/-- The return type `auto`: a value constructed from what was yielded. -/
def decay (y : Yield V) (vars : ℕ → V) : Yield V × (ℕ → V) :=
  match y with
  | .error e => (.error e, vars)
  | .ok y => (.ok (.prvalue (y.read vars)), y.constructFrom moved vars)

def Callable.call : Callable → List (Arg V) → World F V → Yield V × World F V
  | .fn k, args, w =>
    let x := (w.withFn k).invoke f (args.map w.operand)
    (x.1, w.put k x.2)
  | .closure g ks, backArgs, w =>
    let x := g.call (ks.map .captured ++ backArgs) w
    let y := decay moved x.1 x.2.vars
    (y.1, { x.2 with vars := y.2 })

/-! ## Clients -/

/-- A call of what it returns, through a constant reference: one invocation, and what it yields. -/
def stdCall (bound : List V) (backArgs : List (Operand V)) (s : WithFn F V) :
    Yield V × WithFn F V :=
  s.invoke f (bound.map .constant ++ backArgs)

end Call

/-! ## Objects -/

namespace World

/-- What making objects leaves: the caller and the objects that there were. -/
structure Extends (w w' : World F V) : Prop where
  caller : w'.toCaller = w.toCaller
  cells : ∀ k < w.size, w'.cells k = w.cells k
  size : w.size ≤ w'.size
  fns : ∀ k < w.fnCount, w'.fns k = w.fns k
  fnCount : w.fnCount ≤ w'.fnCount

theorem Extends.refl (w : World F V) : w.Extends w :=
  ⟨rfl, fun _ _ => rfl, le_rfl, fun _ _ => rfl, le_rfl⟩

theorem Extends.trans {w w₁ w₂ : World F V} (h : w.Extends w₁) (h' : w₁.Extends w₂) :
    w.Extends w₂ where
  caller := h'.caller.trans h.caller
  cells k hk := (h'.cells k (hk.trans_le h.size)).trans (h.cells k hk)
  size := h.size.trans h'.size
  fns k hk := (h'.fns k (hk.trans_le h.fnCount)).trans (h.fns k hk)
  fnCount := h.fnCount.trans h'.fnCount

theorem extends_store (w : World F V) (v : V) : w.Extends (w.store v) :=
  ⟨rfl, fun _ hk => Function.update_of_ne hk.ne _ _, Nat.le_succ _, fun _ _ => rfl, le_rfl⟩

theorem extends_storeFn (w : World F V) (a : F) : w.Extends (w.storeFn a) :=
  ⟨rfl, fun _ _ => rfl, le_rfl, fun _ hk => Function.update_of_ne hk.ne _ _, Nat.le_succ _⟩

theorem cells_store (w : World F V) (v : V) : (w.store v).cells w.size = v :=
  Function.update_self _ _ _

theorem fns_storeFn (w : World F V) (a : F) : (w.storeFn a).fns w.fnCount = a :=
  Function.update_self _ _ _

end World

theorem captureAll_spec : ∀ (vs : List V) (w : World F V),
    let x := captureAll vs w
    w.Extends x.2 ∧ (∀ k ∈ x.1, k < x.2.size) ∧ x.1.map x.2.cells = vs
  | [], w => ⟨.refl w, fun _ h => absurd h List.not_mem_nil, rfl⟩
  | v :: vs, w => by
    obtain ⟨hrest, hnew, hvalues⟩ := captureAll_spec vs (w.store v)
    have hcell := hrest.cells w.size (Nat.lt_succ_self _)
    unfold captureAll
    refine ⟨(w.extends_store v).trans hrest, ?_, ?_⟩
    · intro k hk
      rcases List.mem_cons.1 hk with rfl | hk
      · exact hrest.size
      · exact hnew k hk
    · simp only [List.map_cons, hvalues]
      rw [hcell, w.cells_store]

namespace Callable

/-- The values that a closure has bound, those of the closures in it first. -/
def values (cells : ℕ → V) : Callable → List V
  | .fn _ => []
  | .closure g ks => g.values cells ++ ks.map cells

/-- The callable object that a closure invokes. -/
def root : Callable → ℕ
  | .fn k => k
  | .closure g _ => g.root

/-- The objects of the closure are below `size` and `fnCount`. -/
def Below (size fnCount : ℕ) : Callable → Prop
  | .fn k => k < fnCount
  | .closure g ks => g.Below size fnCount ∧ ∀ k ∈ ks, k < size

/-- The objects of the closure exist. -/
abbrev In (c : Callable) (w : World F V) : Prop := c.Below w.size w.fnCount

theorem Below.root_lt {size fnCount : ℕ} : ∀ {c : Callable}, c.Below size fnCount → c.root < fnCount
  | .fn _, h => h
  | .closure _ _, ⟨hg, _⟩ => hg.root_lt

theorem Below.mono {size size' fnCount fnCount' : ℕ} (hsize : size ≤ size')
    (hcount : fnCount ≤ fnCount') : ∀ {c : Callable}, c.Below size fnCount → c.Below size' fnCount'
  | .fn _, h => h.trans_le hcount
  | .closure _ _, ⟨hg, hks⟩ => ⟨hg.mono hsize hcount, fun k hk => (hks k hk).trans_le hsize⟩

variable {w w' : World F V}

theorem values_congr (h : ∀ k < w.size, w'.cells k = w.cells k) :
    ∀ {c : Callable}, c.In w → c.values w'.cells = c.values w.cells
  | .fn _, _ => rfl
  | .closure g ks, ⟨hg, hks⟩ => by
    have hmap : ks.map w'.cells = ks.map w.cells :=
      List.map_congr_left fun k hk => h k (hks k hk)
    rw [values, values, values_congr h hg, hmap]

/-- A new callable with its own objects: it has the values `vs`, and its callable object the state
`a`. -/
structure Fresh (w w' : World F V) (c : Callable) (vs : List V) (a : F) : Prop where
  others : w.Extends w'
  below : c.In w'
  values : c.values w'.cells = vs
  root : w'.fns c.root = a
  new : w.fnCount ≤ c.root

/-- Objects that are captured for a new callable leave it a new one. -/
theorem Fresh.capture {c : Callable} {us : List V} {a : F} (h : Fresh w w' c us a) (vs : List V) :
    Fresh w (captureAll vs w').2 (.closure c (captureAll vs w').1) (us ++ vs) a := by
  obtain ⟨hext, hnew, hvalues⟩ := captureAll_spec vs w'
  refine ⟨h.others.trans hext, ⟨h.below.mono hext.size hext.fnCount, hnew⟩, ?_, ?_, h.new⟩
  · rw [Callable.values, values_congr hext.cells h.below, h.values, hvalues]
  · exact (hext.fns c.root h.below.root_lt).trans h.root

theorem copy_spec : ∀ {c : Callable} {w : World F V}, c.In w →
    Fresh w (c.copy w).2 (c.copy w).1 (c.values w.cells) (w.fns c.root)
  | .fn k, w, _ =>
    ⟨w.extends_storeFn (w.fns k), Nat.lt_succ_self _, rfl, w.fns_storeFn (w.fns k), le_rfl⟩
  | .closure g ks, w, ⟨hg, hks⟩ => by
    have hcopy := copy_spec hg
    have hmap : ks.map (g.copy w).2.cells = ks.map w.cells :=
      List.map_congr_left fun k hk => hcopy.others.cells k (hks k hk)
    have hnew := hcopy.capture (ks.map (g.copy w).2.cells)
    rw [hmap] at hnew
    unfold copy
    simp only [hmap]
    exact hnew

end Callable

/-- A closure has the values of what it was made from and those of its arguments, and a copy of the
callable object. -/
theorem bindFront_spec {c : Callable} {w : World F V} (hc : c.In w)
    (frontArgs : List (Operand V)) :
    let x := bindFront c frontArgs w
    Callable.Fresh w x.2 x.1 (c.values w.cells ++ frontArgs.map (Operand.read w.vars))
      (w.fns c.root) :=
  (Callable.copy_spec hc).capture _

/-! ## Calls -/

section Run

variable (f : Fn F V) (moved : V → V)

/-- A call whose result decays. -/
def decayCall (x : Yield V × WithFn F V) : Yield V × WithFn F V :=
  let y := decay moved x.1 x.2.vars
  (y.1, { x.2 with vars := y.2 })

theorem decay_decay (y : Yield V) (vars : ℕ → V) :
    decay moved (decay moved y vars).1 (decay moved y vars).2 = decay moved y vars := by
  rcases y with e | y
  · rfl
  · rfl

theorem decayCall_decayCall (x : Yield V × WithFn F V) :
    decayCall moved (decayCall moved x) = decayCall moved x := by
  unfold decayCall
  simp only [decay_decay]

/-- A call of a closure of any depth invokes its callable object once, with the values that are
bound in front, and yields a value. -/
theorem call_closure : ∀ (g : Callable) (ks : List ℕ) (args : List (Arg V)) (w : World F V),
    let c := Callable.closure g ks
    let y := decayCall moved (stdCall f (c.values w.cells) (args.map w.operand) (w.withFn c.root))
    c.call f moved args w = (y.1, w.put c.root y.2)
  | .fn k, ks, args, w => by
    simp only [Callable.call, Callable.values, Callable.root, stdCall, decayCall, List.map_append,
      List.map_map, List.nil_append]
    rfl
  | .closure g ks', ks, args, w => by
    have ih := call_closure g ks' (ks.map .captured ++ args) w
    have hargs : ((Callable.closure g ks').values w.cells).map Operand.constant ++
        (ks.map Arg.captured ++ args).map w.operand =
          ((Callable.closure (.closure g ks') ks).values w.cells).map Operand.constant ++
            args.map w.operand := by
      simp only [Callable.values, List.map_append, List.map_map, List.append_assoc]
      rfl
    simp only [stdCall, hargs] at ih
    simp only [stdCall, Callable.root]
    rw [Callable.call, ih]
    exact congrArg (fun x => (x.1, w.put g.root x.2)) (decayCall_decayCall moved _)

theorem map_forwarded (backArgs : List (Operand V)) (w : World F V) :
    (backArgs.map Arg.forwarded).map w.operand = backArgs := by
  rw [List.map_map]
  exact List.map_id' _

end Run

/-! ## A reference, and an argument that is moved -/

end Util

end PairingV2

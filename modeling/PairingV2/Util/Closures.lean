import PairingV2.Util.BindFront

/-!
# Many closures

A program that makes closures, of closures too, copies and calls them in any order. Each of them is
a copy of the callable object and the list of the values that it was made with: what the others
capture and what calls do to the variables and to the other copies never gets into it
(`closures_refine`).
-/

namespace PairingV2

namespace Util

variable {F V : Type}

/-! ## Programs over closures -/

/-- What a program does. The callables have numbers in the order in which they are made, the object
that the program begins with the number 0. With a number that there is not, nothing is done. -/
inductive ClosureAct (V : Type) where
  | bindFront (h : ℕ) (frontArgs : List (Operand V))
  | copy (h : ℕ)
  | call (h : ℕ) (backArgs : List (Operand V))
  | modify (g : (ℕ → V) → ℕ → V)
  | load (x : Operand V)

@[reducible] def ClosureAns : ClosureAct V → Type
  | .bindFront _ _ => Option ℕ
  | .copy _ => Option ℕ
  | .call _ _ => Option (Yield V)
  | .modify _ => Unit
  | .load _ => V

structure Closures (F V : Type) extends World F V where
  made : List Callable

namespace Closures

/-- A caller with one callable object; nothing is captured yet. -/
def start (caller : Caller V) (a : F) : Closures F V :=
  ⟨⟨caller, caller.vars, 0, fun _ => a, 1⟩, [.fn 0]⟩

def push (s : Closures F V) (x : Callable × World F V) : Option ℕ × Closures F V :=
  (some s.made.length, ⟨x.2, s.made ++ [x.1]⟩)

end Closures

/-- A callable object, and the values that are bound; none if it is the object alone. -/
structure Bound (F V : Type) where
  fn : F
  values : Option (List V)

structure Bounds (F V : Type) extends Caller V where
  bound : List (Bound F V)

def Bounds.push (s : Bounds F V) (b : Bound F V) : Option ℕ × Bounds F V :=
  (some s.bound.length, { s with bound := s.bound ++ [b] })

section Serve

variable (f : Fn F V) (moved : V → V)

def serveClosures : (i : ClosureAct V) → Closures F V → ClosureAns i × Closures F V
  | .bindFront h frontArgs, s =>
    match s.made[h]? with
    | none => (none, s)
    | some c => s.push (bindFront c frontArgs s.toWorld)
  | .copy h, s =>
    match s.made[h]? with
    | none => (none, s)
    | some c => s.push (c.copy s.toWorld)
  | .call h backArgs, s =>
    match s.made[h]? with
    | none => (none, s)
    | some c =>
      let x := c.call f moved (backArgs.map .forwarded) s.toWorld
      (some x.1, { s with toWorld := x.2 })
  | .modify g, s => ((), { s with vars := g s.vars })
  | .load x, s => (x.read s.vars, s)

/-- A call of a callable object with bound values. -/
def callBound (values : Option (List V)) (backArgs : List (Operand V)) (s : WithFn F V) :
    Yield V × WithFn F V :=
  match values with
  | none => s.invoke f backArgs
  | some vs => decayCall moved (stdCall f vs backArgs s)

def serveBounds : (i : ClosureAct V) → Bounds F V → ClosureAns i × Bounds F V
  | .bindFront h frontArgs, s =>
    match s.bound[h]? with
    | none => (none, s)
    | some b =>
      s.push { b with values := some (b.values.getD [] ++ frontArgs.map (Operand.read s.vars)) }
  | .copy h, s =>
    match s.bound[h]? with
    | none => (none, s)
    | some b => s.push b
  | .call h backArgs, s =>
    match s.bound[h]? with
    | none => (none, s)
    | some b =>
      let x := callBound f moved b.values backArgs ⟨s.toCaller, b.fn⟩
      (some x.1, ⟨x.2.toCaller, s.bound.set h { b with fn := x.2.fn }⟩)
  | .modify g, s => ((), { s with vars := g s.vars })
  | .load x, s => (x.read s.vars, s)

end Serve

/-! ## What a closure has bound -/

namespace Callable

def boundValues (cells : ℕ → V) : Callable → Option (List V)
  | .fn _ => none
  | .closure g ks => some ((Callable.closure g ks).values cells)

def bound (w : World F V) (c : Callable) : Bound F V := ⟨w.fns c.root, c.boundValues w.cells⟩

theorem values_eq (cells : ℕ → V) (c : Callable) :
    c.values cells = (c.boundValues cells).getD [] := by
  cases c <;> rfl

theorem bound_of_extends {w w' : World F V} (h : w.Extends w') {c : Callable} (hc : c.In w) :
    c.bound w' = c.bound w := by
  unfold bound
  rw [h.fns c.root hc.root_lt]
  cases c with
  | fn => rfl
  | closure g ks =>
    exact congrArg (fun vs => (⟨_, some vs⟩ : Bound F V)) (values_congr h.cells hc)

theorem bound_put_self (w : World F V) (c : Callable) (x : WithFn F V) :
    c.bound (w.put c.root x) = { c.bound w with fn := x.fn } := by
  unfold bound World.put
  simp only [Function.update_self]

theorem bound_put_of_ne (w : World F V) {c : Callable} {k : ℕ} (hk : c.root ≠ k)
    (x : WithFn F V) : c.bound (w.put k x) = c.bound w := by
  unfold bound World.put
  simp only [Function.update_of_ne hk]

theorem copy_bound {c : Callable} {w : World F V} (hc : c.In w) :
    (c.copy w).1.bound (c.copy w).2 = c.bound w := by
  have hfresh := copy_spec hc
  unfold bound
  rw [hfresh.root]
  cases c with
  | fn => rfl
  | closure g ks => exact congrArg (fun vs => (⟨_, some vs⟩ : Bound F V)) hfresh.values

end Callable

namespace Closures

def seen (s : Closures F V) : Bounds F V := ⟨s.toCaller, s.made.map (Callable.bound s.toWorld)⟩

/-- The closures have objects that exist, and no two have the same callable object. -/
structure Made (s : Closures F V) : Prop where
  below : ∀ c ∈ s.made, c.In s.toWorld
  own : (s.made.map Callable.root).Nodup

theorem made_start (caller : Caller V) (a : F) : (start caller a).Made := by
  refine ⟨?_, List.nodup_singleton _⟩
  intro c hc
  rw [List.mem_singleton.1 hc]
  exact Nat.one_pos

variable {s : Closures F V}

theorem seen_get (h : ℕ) : s.seen.bound[h]? = s.made[h]?.map (Callable.bound s.toWorld) :=
  List.getElem?_map

/-- A new closure leaves those there are as they are. -/
theorem push_seen (hs : s.Made) {x : Callable × World F V} {vs : List V} {a : F}
    (hx : Callable.Fresh s.toWorld x.2 x.1 vs a) {b : Bound F V} (hb : x.1.bound x.2 = b) :
    (s.push x).1 = (s.seen.push b).1 ∧ (s.push x).2.Made ∧
      (s.push x).2.seen = (s.seen.push b).2 := by
  have hmade : s.made.map (Callable.bound x.2) = s.made.map (Callable.bound s.toWorld) :=
    List.map_congr_left fun c hc => Callable.bound_of_extends hx.others (hs.below c hc)
  refine ⟨?_, ⟨?_, ?_⟩, ?_⟩
  · simp [push, Bounds.push, seen]
  · intro c hc
    rcases List.mem_append.1 hc with hc | hc
    · exact (hs.below c hc).mono hx.others.size hx.others.fnCount
    · rw [List.mem_singleton.1 hc]
      exact hx.below
  · simp only [push, List.map_append, List.map_cons, List.map_nil]
    refine List.nodup_append.2 ⟨hs.own, List.nodup_singleton _, ?_⟩
    intro k hk k' hk'
    obtain ⟨c, hc, rfl⟩ := List.mem_map.1 hk
    rw [List.mem_singleton.1 hk']
    exact ((hs.below c hc).root_lt.trans_le hx.new).ne
  · simp only [push, Bounds.push, seen, List.map_append, List.map_cons, List.map_nil, hmade, hb,
      hx.others.caller]

theorem Made.index_eq (hs : s.Made) {i j : ℕ} {c d : Callable} (hc : s.made[i]? = some c)
    (hd : s.made[j]? = some d) (hroot : c.root = d.root) : i = j := by
  obtain ⟨hlt, -⟩ := List.getElem?_eq_some_iff.1 hc
  refine (List.getElem?_inj (by rwa [List.length_map]) hs.own).1 ?_
  rw [List.getElem?_map, List.getElem?_map, hc, hd, Option.map_some, Option.map_some, hroot]

/-- A call changes the state of its own callable object only. -/
theorem put_seen (hs : s.Made) {h : ℕ} {c : Callable} (hc : s.made[h]? = some c)
    (x : WithFn F V) :
    Made { s with toWorld := s.toWorld.put c.root x } ∧
      seen { s with toWorld := s.toWorld.put c.root x } =
        ⟨x.toCaller, s.seen.bound.set h { c.bound s.toWorld with fn := x.fn }⟩ := by
  refine ⟨⟨hs.below, hs.own⟩, ?_⟩
  have hbound : s.made.map (Callable.bound (s.toWorld.put c.root x)) =
      (s.made.map (Callable.bound s.toWorld)).set h { c.bound s.toWorld with fn := x.fn } := by
    refine List.ext_getElem? fun i => ?_
    rw [List.getElem?_set, List.getElem?_map, List.getElem?_map]
    by_cases hi : h = i
    · subst hi
      obtain ⟨hlt, -⟩ := List.getElem?_eq_some_iff.1 hc
      rw [hc, if_pos rfl, List.length_map, if_pos hlt, Option.map_some, Callable.bound_put_self]
    · rw [if_neg hi]
      rcases hd : s.made[i]? with _ | d
      · rfl
      · have hroot : d.root ≠ c.root := fun heq => hi (hs.index_eq hc hd heq.symm)
        rw [Option.map_some, Option.map_some, Callable.bound_put_of_ne _ hroot]
  exact congrArg (Bounds.mk x.toCaller) hbound

end Closures

section Run

variable (f : Fn F V) (moved : V → V)

theorem call_bound (c : Callable) (backArgs : List (Operand V)) (w : World F V) :
    c.call f moved (backArgs.map .forwarded) w =
      let x := callBound f moved (c.boundValues w.cells) backArgs (w.withFn c.root)
      (x.1, w.put c.root x.2) := by
  cases c with
  | fn k => simp only [Callable.call, callBound, Callable.boundValues, map_forwarded, Callable.root]
  | closure g ks => simp only [call_closure, callBound, Callable.boundValues, map_forwarded]

/-- Each step of a program does to the closures what it does to the objects and values that are
bound. -/
theorem serve_seen (i : ClosureAct V) {s : Closures F V} (hs : s.Made) :
    (serveClosures f moved i s).1 = (serveBounds f moved i s.seen).1 ∧
      (serveClosures f moved i s).2.Made ∧
      (serveClosures f moved i s).2.seen = (serveBounds f moved i s.seen).2 := by
  cases i with
  | bindFront h frontArgs =>
    simp only [serveClosures, serveBounds, Closures.seen_get]
    rcases hc : s.made[h]? with _ | c
    · exact ⟨rfl, hs, rfl⟩
    · have hfresh := bindFront_spec (hs.below c (List.mem_of_getElem? hc)) frontArgs
      refine Closures.push_seen hs hfresh ?_
      simp only [Callable.bound, ← Callable.values_eq]
      rw [hfresh.root]
      exact congrArg (fun vs => (⟨_, some vs⟩ : Bound F V)) hfresh.values
  | copy h =>
    simp only [serveClosures, serveBounds, Closures.seen_get]
    rcases hc : s.made[h]? with _ | c
    · exact ⟨rfl, hs, rfl⟩
    · have hbelow := hs.below c (List.mem_of_getElem? hc)
      exact Closures.push_seen hs (Callable.copy_spec hbelow) (Callable.copy_bound hbelow)
  | call h backArgs =>
    simp only [serveClosures, serveBounds, Closures.seen_get]
    rcases hc : s.made[h]? with _ | c
    · exact ⟨rfl, hs, rfl⟩
    · obtain ⟨hmade, hseen⟩ := Closures.put_seen hs hc
        (callBound f moved (c.boundValues s.cells) backArgs (s.withFn c.root)).2
      simp only [call_bound]
      exact ⟨rfl, hmade, hseen⟩
  | modify g => exact ⟨rfl, ⟨hs.below, hs.own⟩, rfl⟩
  | load x => exact ⟨rfl, hs, rfl⟩

/-- What closures have bound only grows. -/
theorem serveBounds_grows (i : ClosureAct V) (t : Bounds F V) :
    t.bound.map Bound.values <+: (serveBounds f moved i t).2.bound.map Bound.values := by
  cases i with
  | bindFront h | copy h =>
    simp only [serveBounds]
    rcases hb : t.bound[h]? with _ | b
    · exact List.prefix_rfl
    · exact List.IsPrefix.map _ (List.prefix_append _ _)
  | call h =>
    simp only [serveBounds]
    rcases hb : t.bound[h]? with _ | b
    · exact List.prefix_rfl
    · obtain ⟨hlt, rfl⟩ := List.getElem?_eq_some_iff.1 hb
      -- the state of the object is all that changes
      have hsame : (t.bound.map Bound.values).set h (t.bound[h]).values =
          t.bound.map Bound.values := by
        rw [← List.getElem_map Bound.values (h := by rwa [List.length_map]), List.set_getElem_self]
      simp only [List.map_set, hsame]
      exact List.prefix_rfl
  | modify | load => exact List.prefix_rfl

theorem exec_grows {ρ : Type*} : ∀ (p : Prog (ClosureAct V) ClosureAns ρ) (t : Bounds F V),
    t.bound.map Bound.values <+: (p.exec (serveBounds f moved) t).2.2.bound.map Bound.values
  | .ret _, _ => List.prefix_rfl
  | .act i k, t => by
    rw [Prog.exec_act]
    exact (serveBounds_grows f moved i t).trans (exec_grows _ _)

theorem exec_seen {ρ : Type*} (p : Prog (ClosureAct V) ClosureAns ρ) {s : Closures F V}
    (hs : s.Made) :
    let x := p.exec (serveClosures f moved) s
    let y := p.exec (serveBounds f moved) s.seen
    x.1 = y.1 ∧ x.2.1 = y.2.1 ∧ x.2.2.Made ∧ x.2.2.seen = y.2.2 :=
  Prog.exec_sim (R := fun (s : Closures F V) t => s.Made ∧ s.seen = t)
    (fun i s t hR => by
      obtain ⟨hs, rfl⟩ := hR
      exact serve_seen f moved i hs) p ⟨hs, rfl⟩

/-- A program cannot tell its closures from copies of the callable object beside lists of values:
it performs and results in the same, each closure ends with the state and the values that are
theirs, and whatever runs later leaves the values as they are. -/
theorem closures_refine {ρ : Type*} (p : Prog (ClosureAct V) ClosureAns ρ) (caller : Caller V)
    (a : F) :
    let x := p.exec (serveClosures f moved) (.start caller a)
    let y := p.exec (serveBounds f moved) ⟨caller, [⟨a, none⟩]⟩
    x.1 = y.1 ∧ x.2.1 = y.2.1 ∧ x.2.2.seen = y.2.2 ∧
      ∀ {ρ' : Type} (q : Prog (ClosureAct V) ClosureAns ρ'),
        y.2.2.bound.map Bound.values <+:
          (q.exec (serveClosures f moved) x.2.2).2.2.seen.bound.map Bound.values := by
  intro x y
  obtain ⟨hevents, hres, hmade, hseen⟩ := exec_seen f moved p (Closures.made_start caller a)
  refine ⟨hevents, hres, hseen, fun q => ?_⟩
  obtain ⟨-, -, -, hlater⟩ := exec_seen f moved q hmade
  rw [hlater, hseen]
  exact exec_grows f moved q _

end Run

end Util

end PairingV2

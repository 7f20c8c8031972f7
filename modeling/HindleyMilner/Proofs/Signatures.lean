import HindleyMilner.Proofs.Program
/-!
# The signatures of a program

The bindings a program gives are its signatures. Each of them is *canonical*
(`Scheme.Canonical`): it quantifies exactly the variables of its body, each once, in order of
first occurrence. A canonical scheme is closed, has no free variable, and prints every variable
of its body under the letter of its place in that order, `'a`, `'b`, ..., and none under its
plain name (`Scheme.Canonical.pretty_eq`).

Typing a program keeps every environment on the way canonical, with the counter fresh for it
(`Decl.infer_canonical`, `inferDecls_canonical`). A value declaration adds its name at the
generalization of a type in a closed environment, which quantifies every variable of the type
in order (`inferBinding_closed`); for a recursive one this needs the placeholder of the name
dropped before generalizing. An expression leaves the environment as it was. The program starts
from the empty environment, which is canonical at every counter (`inferProgram_canonical`).
-/

namespace HindleyMilner

open InferM

/-- A scheme is canonical when it quantifies exactly the variables of its body, each once, in
order of first occurrence. -/
def Scheme.Canonical (sc : Scheme) : Prop := sc.vars = sc.ty.varsInOrder

namespace Scheme.Canonical

variable {sc : Scheme}

theorem closed (h : sc.Canonical) : sc.Closed := fun v hv => by
  rw [h]
  exact List.mem_eraseDups.2 hv

/-- A canonical scheme has no free variable. -/
theorem freeVars_eq_nil (h : sc.Canonical) : sc.freeVars = [] := by
  rw [List.eq_nil_iff_forall_not_mem]
  intro v hv
  obtain ⟨hvt, hvq⟩ := (Scheme.mem_freeVars sc v).1 hv
  exact hvq (h.closed v hvt)

/-- A canonical scheme prints each variable of its body as the letter of its place in the order
of first occurrence. -/
theorem pretty_eq (h : sc.Canonical) :
    sc.pretty = sc.ty.render (fun v => "'" ++ letterName (sc.ty.varsInOrder.idxOf v)) .arrow := by
  rw [pretty]
  refine Ty.render_congr .arrow sc.ty (fun v hv => ?_)
  -- every variable of the body is lettered, at its place among all of them
  obtain ⟨i, hi⟩ : ∃ i, sc.ty.varsInOrder.idxOf? v = some i :=
    Option.isSome_iff_exists.1 (List.isSome_idxOf?.2 (List.mem_eraseDups.2 hv))
  have hidx : sc.ty.varsInOrder.idxOf v = i := by
    rw [List.idxOf_eq_getD_idxOf?, hi]
    rfl
  simp only [varName, h.closed.namedVars_eq, hi, hidx]

end Scheme.Canonical

/-- Every scheme of the environment is canonical. -/
def TypeEnv.Canonical (env : TypeEnv) : Prop := ∀ e ∈ env.entries, e.2.Canonical

namespace TypeEnv.Canonical

variable {env : TypeEnv}

theorem empty : TypeEnv.empty.Canonical := fun _ he => absurd he List.not_mem_nil

theorem closed (h : env.Canonical) : env.Closed := fun e he => (h e he).closed

/-- Binding a name at the scheme that quantifies every variable of a type, in order, keeps an
environment canonical. -/
theorem extend (h : env.Canonical) (x : String) (t : Ty) :
    (env.extend x ⟨t.varsInOrder, t⟩).Canonical := fun e he => by
  rcases SortedMap.mem_entries_insert he with rfl | he
  · rfl
  · exact h e he

end TypeEnv.Canonical

/-- A declaration accepted in a canonical environment, from a counter fresh for it, gives a
canonical environment with the counter after it fresh. -/
theorem Decl.infer_canonical {order : ComponentOrder} {d : Decl} {env env' : TypeEnv} {m k : Nat}
    (hcan : env.Canonical) (henv : env.Fresh m) (h : (d.infer order env).run m = (.ok env', k)) :
    env'.Canonical ∧ env'.Fresh k := by
  cases d with
  | value kind x value =>
    simp only [Decl.infer, run_bind_eq_ok, run_pure, Prod.mk.injEq, Except.ok.injEq] at h
    obtain ⟨⟨s, env₁⟩, k', hb, ⟨rfl, rfl⟩⟩ := h
    -- the binding adds the name at a type generalized over all its variables
    obtain ⟨T, rfl⟩ := inferBinding_closed hcan.closed henv hb
    obtain ⟨-, -, hfresh, -⟩ :=
      inferBinding_scoped (fun h hr => Expr.infer_scoped value h hr) henv hb
    exact ⟨hcan.extend x T, hfresh⟩
  | expr e =>
    simp only [Decl.infer, run_bind_eq_ok, run_pure, Prod.mk.injEq, Except.ok.injEq] at h
    obtain ⟨⟨s, t⟩, k', he, ⟨rfl, rfl⟩⟩ := h
    exact ⟨hcan, henv.mono (Expr.infer_scoped e henv he).le⟩
  | typeDef name _ => exact absurd h run_throw_ne_ok

/-- Declarations accepted one after the other from a canonical environment, with the counter
fresh for it, end in a canonical environment. -/
theorem inferDecls_canonical {order : ComponentOrder} :
    ∀ (ds : List Decl) {env env' : TypeEnv} {m k : Nat}, env.Canonical → env.Fresh m →
      (ds.foldlM (fun (env : TypeEnv) (d : Decl) => d.infer order env) env).run m = (.ok env', k) →
      env'.Canonical
  | [], _, _, _, _, hcan, _, h => by
    simp only [List.foldlM_nil, run_pure, Prod.mk.injEq, Except.ok.injEq] at h
    obtain ⟨rfl, -⟩ := h
    exact hcan
  | d :: ds, _, _, _, _, hcan, henv, h => by
    simp only [List.foldlM_cons, run_bind_eq_ok] at h
    obtain ⟨F, n, hd, hds⟩ := h
    obtain ⟨hcanF, hF⟩ := Decl.infer_canonical hcan henv hd
    exact inferDecls_canonical ds hcanF hF hds

/-- Every binding of a typed program is closed and canonically quantified: its scheme has no free
variable and quantifies the variables of its body, each once, in order of first occurrence. So
it prints each variable as the letter of its place in that order, `'a`, `'b`, ..., and none
under its plain name `'tN`. This holds in either component order and from any counter. -/
theorem inferProgram_canonical (order : ComponentOrder) (decls : List Decl) (n : Nat)
    {env : TypeEnv} {k : Nat} (h : (inferProgram order decls).run n = (.ok env, k)) :
    ∀ x sc, (x, sc) ∈ env.entries → sc.freeVars = [] ∧ sc.vars = sc.ty.varsInOrder ∧
      sc.pretty = sc.ty.render (fun v => "'" ++ letterName (sc.ty.varsInOrder.idxOf v)) .arrow := by
  intro x sc hx
  have hcan : sc.Canonical :=
    inferDecls_canonical decls TypeEnv.Canonical.empty (TypeEnv.Fresh.empty n) h (x, sc) hx
  exact ⟨hcan.freeVars_eq_nil, hcan, hcan.pretty_eq⟩

/-- `let rec len = fun l -> match l with [] -> 0 | _ :: xs -> 1 + len xs` gets the signature
`∀ 4. 't4 list -> int`, which prints as `'a list -> int`. -/
theorem inferProgram_canonical_length :
    (inferProgram .sequential [.value .recursive "len" (.lam (.var "l") (.matchOn (.var "l")
        [(.lit .nil, .lit (.int 0)), (.cons .any (.var "xs"),
          .binop .add (.lit (.int 1)) (.app (.var "len") (.var "xs")))]))]).run 0 =
        (.ok ⟨[("len", ⟨[4], .arrow (.list (.var 4)) .int⟩)]⟩, 7) ∧
      ∀ x sc, (x, sc) ∈ [("len", (⟨[4], .arrow (.list (.var 4)) .int⟩ : Scheme))] →
        sc.freeVars = [] ∧ sc.vars = sc.ty.varsInOrder ∧
        sc.pretty = sc.ty.render (fun v => "'" ++ letterName (sc.ty.varsInOrder.idxOf v)) .arrow :=
  have h : (inferProgram .sequential [.value .recursive "len" (.lam (.var "l") (.matchOn (.var "l")
        [(.lit .nil, .lit (.int 0)), (.cons .any (.var "xs"),
          .binop .add (.lit (.int 1)) (.app (.var "len") (.var "xs")))]))]).run 0 =
        (.ok ⟨[("len", ⟨[4], .arrow (.list (.var 4)) .int⟩)]⟩, 7) := by
    cbv
  ⟨h, inferProgram_canonical .sequential _ 0 h⟩

example : Scheme.pretty ⟨[4], .arrow (.list (.var 4)) .int⟩ = "'a list -> int" := by
  decide

end HindleyMilner

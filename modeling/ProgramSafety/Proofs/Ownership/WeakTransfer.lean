import ProgramSafety.Proofs.Ownership.Uses
import ProgramSafety.Session

/-!
# Transfers from and into weak references

A weak reference may go into a weak optional as it is, and into any other optional
after a check that its object is still there; it may go nowhere else. In the other
direction a counted reference that goes into a weak optional becomes a weak link.

The check is made only where the weak reference is copied out of a place
(`Context.weak_source_recorded`), and the operand of `Some` is retained before the
optional around it becomes a weak link (`Context.weak_store_recorded`). The program
in `Links` shows both.
-/

namespace ProgramSafety

/-- The type of something that can be absent, or that may turn out to be of such a
type. -/
def Ty.mayBeAbsent : Ty → Bool
  | optional _ | param _ => true
  | _ => false

theorem Ty.isWeakOptional_iff {t : Ty} : t.isWeakOptional = true ↔ ∃ u, t = optional (weak u) := by
  constructor
  · intro ht
    unfold isWeakOptional at ht
    split at ht
    · exact ⟨_, rfl⟩
    · simp at ht
  · rintro ⟨u, rfl⟩
    rfl

namespace Registry

variable {r : Registry} {t : Ty}

theorem isUnknown_of_kindOf {kind : OwnershipKind} (ht : r.kindOf t = kind)
    (hkind : kind ≠ .value) : t.isUnknown = false := by
  cases t with
  | unknown => exact absurd ht.symm hkind
  | _ => rfl

theorem kindOf_of_isWeakOptional (ht : t.isWeakOptional = true) : r.kindOf t = .weakRef := by
  obtain ⟨u, rfl⟩ := Ty.isWeakOptional_iff.1 ht
  rfl

/-- Weak optionals own nothing. -/
theorem countedPaths_of_isWeakOptional (ht : t.isWeakOptional = true) : r.countedPaths t = [] := by
  unfold countedPaths pathsWithin
  simp only [kindOf_of_isWeakOptional ht]

end Registry

namespace Context

variable {c : Context} {e : Expr} {dest : Ty}

theorem recordedAt_of_transferAt (hids : c.body.block.DistinctIds) (hx : c.TransferAt e dest)
    (next : ℕ) :
    c.recordedAt next e = (c.transferFindings ⟨e, dest⟩).filterMap Finding.obligation? :=
  recordedAt_of_mem_bodyUses hids (mem_bodyUses_of_transferAt hx) next

/-! ## Weak references as sources -/

theorem transferFindings_of_weakRef (hweak : c.registry.kindOf (c.types.expr e) = .weakRef)
    (hdest : dest ≠ .unknown) :
    c.transferFindings ⟨e, dest⟩ =
      if dest.isWeakOptional then []
      else if dest.mayBeAbsent then
        if e.isPlace then [.obligation (.weakRead e.id)] else []
      else [.problem (.weakRead (c.types.expr e) dest e.span)] := by
  have hsource := Registry.isUnknown_of_kindOf hweak (by decide)
  rw [transferFindings]
  simp only [hsource, hweak]
  cases dest with
  | unknown => exact absurd rfl hdest
  | wrap w t => cases w <;> simp [Ty.isUnknown, Ty.mayBeAbsent]
  | _ => simp [Ty.isUnknown, Ty.mayBeAbsent]

/-- A weak reference that goes into a weak optional needs nothing. Into another
optional, or into a type parameter, it is read with a check if it comes out of a
place, and without one if it is fresh. Anywhere else it is a problem. An optional
that is released later therefore holds what a weak place gave it only after a check. -/
theorem weak_source_recorded (hids : c.body.block.DistinctIds) (hx : c.TransferAt e dest)
    (hweak : c.registry.kindOf (c.types.expr e) = .weakRef) (hdest : dest ≠ .unknown) (next : ℕ) :
    c.transferFindings ⟨e, dest⟩ <:+: (c.lifetimeFindings next).2 ∧
    (dest.isWeakOptional = true →
      c.transferFindings ⟨e, dest⟩ = [] ∧ c.recordedAt next e = []) ∧
    (dest.isWeakOptional = false → dest.mayBeAbsent = true →
      c.recordedAt next e = (if e.isPlace then [.weakRead e.id] else []) ∧
      ∀ p, .problem p ∉ c.transferFindings ⟨e, dest⟩) ∧
    (dest.mayBeAbsent = false →
      c.transferFindings ⟨e, dest⟩ = [.problem (.weakRead (c.types.expr e) dest e.span)] ∧
      c.recordedAt next e = []) ∧
    (dest.mayBeAbsent = true → c.registry.countedPaths dest ≠ [] →
      (c.recordedAt next e = [.weakRead e.id] ↔ e.isPlace = true)) := by
  have hrecorded := recordedAt_of_transferAt hids hx next
  have hread : dest.isWeakOptional = false → dest.mayBeAbsent = true →
      c.recordedAt next e = (if e.isPlace then [.weakRead e.id] else []) ∧
        ∀ p, .problem p ∉ c.transferFindings ⟨e, dest⟩ := by
    intro hstrong habsent
    have hfound : c.transferFindings ⟨e, dest⟩ =
        if e.isPlace then [.obligation (.weakRead e.id)] else [] := by
      rw [transferFindings_of_weakRef hweak hdest]
      simp [hstrong, habsent]
    rw [hrecorded, hfound]
    cases e.isPlace <;> simp [Finding.obligation?]
  refine ⟨useFindings_isInfix (mem_bodyUses_of_transferAt hx) next, ?_, hread, ?_, ?_⟩
  · intro hoptional
    have hfound : c.transferFindings ⟨e, dest⟩ = [] := by
      rw [transferFindings_of_weakRef hweak hdest, if_pos hoptional]
    exact ⟨hfound, by rw [hrecorded, hfound]; rfl⟩
  · intro habsent
    have hstrong : dest.isWeakOptional = false := by
      rw [← Bool.not_eq_true]
      intro hoptional
      obtain ⟨u, rfl⟩ := Ty.isWeakOptional_iff.1 hoptional
      simp [Ty.mayBeAbsent] at habsent
    have hfound : c.transferFindings ⟨e, dest⟩ =
        [.problem (.weakRead (c.types.expr e) dest e.span)] := by
      rw [transferFindings_of_weakRef hweak hdest]
      simp [hstrong, habsent]
    exact ⟨hfound, by rw [hrecorded, hfound]; rfl⟩
  · intro habsent howns
    have hstrong : dest.isWeakOptional = false := by
      rw [← Bool.not_eq_true]
      exact fun hweak => howns (Registry.countedPaths_of_isWeakOptional hweak)
    rw [(hread hstrong habsent).1]
    cases e.isPlace <;> simp

/-! ## Weak references as destinations -/

theorem transferFindings_of_sharedRef
    (hshared : c.registry.kindOf (c.types.expr e) = .sharedRef) (dest : Ty) :
    c.transferFindings ⟨e, dest⟩ =
      if dest.isWeakOptional then [.obligation (.weakStore e.id)]
      else if e.isPlace then [.obligation (.retain e.id)] else [] := by
  have hsource := Registry.isUnknown_of_kindOf hshared (by decide)
  simp [transferFindings, hsource, hshared]

theorem TransferAt.has (hx : c.TransferAt e dest) : c.body.block.Has (.expr e) :=
  has_of_mem_bodyUses (mem_bodyUses_of_transferAt hx)

/-- A counted reference that goes into a weak optional becomes a weak link. An
optional `Some x` around a counted reference becomes one as well if it is of a
counted type, and is left alone if it is of a weak type already; in both cases `x`
is retained if it is a place. -/
theorem weak_store_recorded {source : Expr} (hids : c.body.block.DistinctIds)
    (hx : c.TransferAt source dest) (hdest : dest.isWeakOptional = true) (next : ℕ) :
    (c.registry.kindOf (c.types.expr source) = .sharedRef →
      c.recordedAt next source = [.weakStore source.id]) ∧
    ∀ x t, source.form = .present x → c.types.expr source = .optional t →
      c.registry.kindOf (c.types.expr x) = .sharedRef →
      (c.registry.kindOf t = .sharedRef →
        c.recordedAt next source = [.weakStore source.id] ∧
        c.recordedAt next x = if x.isPlace then [.retain x.id] else []) ∧
      ∀ u, t = .weak u →
        c.recordedAt next source = [] ∧
        c.recordedAt next x = if x.isPlace then [.retain x.id] else [] := by
  have hsource := recordedAt_of_transferAt hids hx next
  have hstore : c.registry.kindOf (c.types.expr source) = .sharedRef →
      c.recordedAt next source = [.weakStore source.id] := by
    intro hshared
    rw [hsource, transferFindings_of_sharedRef hshared, if_pos hdest]
    rfl
  refine ⟨hstore, fun x t hform htype hx' => ?_⟩
  -- The operand goes into what the optional may hold, which is not an optional itself.
  have hoperand : t.isWeakOptional = false →
      c.recordedAt next x = if x.isPlace then [.retain x.id] else [] := by
    intro ht
    have hpresent : c.TransferAt x t := by
      have hat := TransferAt.operand hx.has hform
      rwa [htype] at hat
    rw [recordedAt_of_transferAt hids hpresent next, transferFindings_of_sharedRef hx', ht]
    cases x.isPlace <;> rfl
  constructor
  · intro ht
    refine ⟨hstore (by rw [htype]; exact ht), hoperand ?_⟩
    rw [← Bool.not_eq_true]
    intro hweak
    rw [Registry.kindOf_of_isWeakOptional hweak] at ht
    exact absurd ht (by decide)
  · rintro u rfl
    refine ⟨?_, hoperand rfl⟩
    have hkind : c.registry.kindOf (c.types.expr source) = .weakRef := by
      rw [htype]
      rfl
    have hknown : dest ≠ .unknown := by
      rintro rfl
      simp [Ty.isWeakOptional] at hdest
    rw [hsource, transferFindings_of_weakRef hkind hknown, if_pos hdest]
    rfl

end Context

namespace Links

def optional (t : TypeRef) : TypeRef := .applied "Optional" [t]

def nodeType : TypeRef := .named "Node"

def linkType : TypeRef := optional (.applied "Weak" [nodeType])

def bind (type : TypeRef) (init : Expr) : Stmt := .bind ⟨"x", .nowhere⟩ false type init

def seen (id : ℕ) : Expr := ⟨id, .nowhere, linkType, .var "seen"⟩

def observed (id : ℕ) : Expr := ⟨id, .nowhere, linkType, .call [] "observe" []⟩

/-- Weak references go into all kinds of destinations. -/
def reading : Block :=
  ⟨.nowhere, [bind (optional nodeType) (seen 1), bind linkType (seen 2), bind nodeType (seen 3),
    bind (optional nodeType) (observed 4), bind (optional linkType) (seen 5)]⟩

def node (id : ℕ) : Expr := ⟨id, .nowhere, nodeType, .var "node"⟩

def wrapped (id : ℕ) (type : TypeRef) : Expr := ⟨id + 1, .nowhere, type, .present (node id)⟩

/-- A node goes into weak optionals, by itself and wrapped. -/
def storing : Block :=
  ⟨.nowhere, [bind linkType (node 1), bind linkType (wrapped 2 (optional nodeType)),
    bind linkType (wrapped 4 linkType)]⟩

def run (body : Block) : FunctionDecl :=
  ⟨⟨"run", .nowhere⟩, [], [⟨⟨"seen", .nowhere⟩, linkType⟩, ⟨⟨"node", .nowhere⟩, nodeType⟩],
    none, false, some body⟩

def program (body : Block) : Program where
  decls :=
    [.type (.classType ⟨⟨"Node", .nowhere⟩, [], [], []⟩),
      .function ⟨⟨"observe", .nowhere⟩, [], [], some linkType, false, none⟩, .function (run body)]

def session (body : Block) : Session := ((Session.start .default).register (program body)).1.close.1

def context (body : Block) : Context :=
  (session body).context (TypeTable.ofBodies (session body).registry (program body).bodies)
    ⟨[], none, run body, body⟩

def nodes : Ty := .adt 0 "Node" []

theorem transferAt_of_bind {body : Block} (type : TypeRef) {init : Expr} {t : Ty}
    (h : bind type init ∈ body.stmts) (ht : (context body).types.binding init = t) :
    (context body).TransferAt init t :=
  ht ▸ .initialiser (Block.has_of_mem_stmts h)

theorem distinctIds_reading : (context reading).body.block.DistinctIds :=
  (by decide : (reading.exprs.map Expr.id).Nodup)

theorem distinctIds_storing : (context storing).body.block.DistinctIds :=
  (by decide : (storing.exprs.map Expr.id).Nodup)

theorem weak_source_recorded_reading :
    (context reading).recordedAt 0 (seen 1) = [.weakRead 1] ∧
      (context reading).recordedAt 0 (seen 2) = [] ∧
      (context reading).transferFindings ⟨seen 3, nodes⟩ =
        [.problem (.weakRead (.optional (.weak nodes)) nodes .nowhere)] := by
  have hchecked : (context reading).TransferAt (seen 1) (.optional nodes) :=
    transferAt_of_bind (optional nodeType) (by simp [reading]) (by decide +kernel)
  have hlinked : (context reading).TransferAt (seen 2) (.optional (.weak nodes)) :=
    transferAt_of_bind linkType (by simp [reading]) (by decide +kernel)
  have hrefused : (context reading).TransferAt (seen 3) nodes :=
    transferAt_of_bind nodeType (by simp [reading]) (by decide +kernel)
  obtain ⟨-, -, hchecked, -, -⟩ := Context.weak_source_recorded distinctIds_reading hchecked
    (by decide +kernel) (by decide) 0
  obtain ⟨-, hlinked, -, -, -⟩ := Context.weak_source_recorded distinctIds_reading hlinked
    (by decide +kernel) (by decide) 0
  obtain ⟨-, -, -, hrefused, -⟩ := Context.weak_source_recorded distinctIds_reading hrefused
    (by decide +kernel) (by decide) 0
  have htype : (context reading).types.expr (seen 3) = .optional (.weak nodes) := by
    decide +kernel
  exact ⟨(hchecked rfl rfl).1, (hlinked rfl).2, htype ▸ (hrefused rfl).1⟩

/-- A weak reference that a call returns goes into an optional unchecked, and one
that goes into an optional weak optional is checked. -/
theorem weak_source_unchecked :
    (context reading).body.block.DistinctIds ∧
      ((context reading).TransferAt (observed 4) (.optional nodes) ∧
        (context reading).registry.kindOf ((context reading).types.expr (observed 4)) = .weakRef ∧
        (context reading).registry.kindOf (.optional nodes) = .sharedRef ∧
        (context reading).recordedAt 0 (observed 4) = []) ∧
      (context reading).TransferAt (seen 5) (.optional (.optional (.weak nodes))) ∧
        (context reading).registry.kindOf ((context reading).types.expr (seen 5)) = .weakRef ∧
        (context reading).registry.kindOf (.optional (.optional (.weak nodes))) = .weakRef ∧
        (context reading).recordedAt 0 (seen 5) = [.weakRead 5] :=
  ⟨distinctIds_reading,
    ⟨transferAt_of_bind (optional nodeType) (by simp [reading]) (by decide +kernel),
      by decide +kernel, by decide +kernel, by decide +kernel⟩,
    transferAt_of_bind (optional linkType) (by simp [reading]) (by decide +kernel),
    by decide +kernel, by decide +kernel, by decide +kernel⟩

theorem weak_store_recorded_storing :
    (context storing).recordedAt 0 (node 1) = [.weakStore 1] ∧
      (context storing).recordedAt 0 (wrapped 2 (optional nodeType)) = [.weakStore 3] := by
  have hbare : (context storing).TransferAt (node 1) (.optional (.weak nodes)) :=
    transferAt_of_bind linkType (by simp [storing]) (by decide +kernel)
  have hwrapped : (context storing).TransferAt (wrapped 2 (optional nodeType))
      (.optional (.weak nodes)) :=
    transferAt_of_bind linkType (by simp [storing]) (by decide +kernel)
  obtain ⟨hbare, -⟩ := Context.weak_store_recorded distinctIds_storing hbare rfl 0
  obtain ⟨-, hwrapped⟩ := Context.weak_store_recorded distinctIds_storing hwrapped rfl 0
  refine ⟨hbare (by decide +kernel), ?_⟩
  exact ((hwrapped (node 2) nodes rfl (by decide +kernel) (by decide +kernel)).1
    (by decide +kernel)).1

/-- A node that goes into a weak optional inside `Some` is retained, and becomes no
weak link if the optional is a weak one already. -/
theorem weak_store_retained :
    (context storing).body.block.DistinctIds ∧
      ((context storing).TransferAt (wrapped 2 (optional nodeType)) (.optional (.weak nodes)) ∧
        (context storing).registry.kindOf ((context storing).types.expr (node 2)) = .sharedRef ∧
        (context storing).recordedAt 0 (node 2) = [.retain 2]) ∧
      (context storing).TransferAt (wrapped 4 linkType) (.optional (.weak nodes)) ∧
        (context storing).registry.kindOf ((context storing).types.expr (node 4)) = .sharedRef ∧
        (context storing).recordedAt 0 (node 4) = [.retain 4] ∧
        (context storing).recordedAt 0 (wrapped 4 linkType) = [] :=
  ⟨distinctIds_storing,
    ⟨transferAt_of_bind linkType (by simp [storing]) (by decide +kernel), by decide +kernel,
      by decide +kernel⟩,
    transferAt_of_bind linkType (by simp [storing]) (by decide +kernel), by decide +kernel,
    by decide +kernel, by decide +kernel⟩

end Links

end ProgramSafety

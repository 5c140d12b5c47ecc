import ClassTable.Proofs.Registry.Interning

/-!
# Where types come from

Every type of a catalog was made by one call of its log, the call that was given its number when
there was no such number yet. What the catalog says about the type is what that call made of it.
-/

namespace ClassTable

/-- The call made the type `i`. -/
structure Call.MadeType (call : Call) (i : TypeIndex) (e : Entry) : Prop where
  /-- The request makes this type. -/
  makes : call.before.Makes call.request e
  /-- It was given this number. -/
  answer : call.answer = some i

/-- **Every type was made by a call.** -/
theorem madeType_run {names : CoreNames} {log : List Call} {c : Catalog}
    (h : Catalog.Run names log c) {i : TypeIndex} {e : Entry} (he : c.inventory.get? i = some e) :
    ∃ call ∈ log, call.MadeType i e := by
  refine (h.log_induction (P := fun log inv => inv.Sound ∧
    ∀ i e, inv.get? i = some e → ∃ call ∈ log, call.MadeType i e)
    ⟨Inventory.sound_empty, fun i e he => absurd he (by simp [Inventory.get?])⟩ ?_).2 i e he
  intro log inv q ih
  refine ⟨Inventory.sound_answer ih.1 q, fun i e he => ?_⟩
  have hbefore : inv.get? i = some e →
      ∃ call ∈ log ++ [⟨q, inv, (inv.answer q).1, (inv.answer q).2⟩], call.MadeType i e :=
    fun hold => (ih.2 i e hold).imp fun _ hcall => ⟨List.mem_append_left _ hcall.1, hcall.2⟩
  rcases Inventory.answer_cases ih.1 q with
    ⟨_, _, hanswer⟩ | ⟨_, hanswer⟩ | ⟨made, hmakes, _, hanswer⟩
  · exact hbefore (by rwa [hanswer] at he)
  · exact hbefore (by rwa [hanswer] at he)
  · rw [hanswer, Inventory.get?_push] at he
    split at he
    · rename_i hi
      cases he
      refine ⟨_, List.mem_append_right _ (List.mem_singleton_self _), hmakes, ?_⟩
      rw [hanswer, hi]
    · exact hbefore he

/-- **A named type was registered,** with the kind and the arity that it has. -/
theorem registered_of_named {names : CoreNames} {log : List Call} {c : Catalog}
    (h : Catalog.Run names log c) {i : TypeIndex} {e : Entry} {signature : String}
    (he : c.inventory.get? i = some e) (hkey : e.key = .named signature) :
    e.signature = signature ∧ ∃ call ∈ log,
      call.request = .register signature e.kind e.arity ∧ call.answer = some i := by
  obtain ⟨call, hcall, hmade⟩ := madeType_run h he
  have hmakes := hmade.makes
  generalize hq : call.request = q at hmakes
  cases hmakes with
  | named written kind arity =>
      cases hkey
      exact ⟨rfl, call, hcall, hq, hmade.answer⟩
  | specialized _ _ => cases hkey
  | array _ => cases hkey

end ClassTable

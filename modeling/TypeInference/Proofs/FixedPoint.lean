import TypeInference.Proofs.Finishing

/-!
# Settling as a fixed point

There are at most as many rounds over the accesses in waiting as there are accesses, and unless
types clash they end only where another round would settle nothing. What they find does not depend
on the order of the accesses: whatever solves the store that one order ends in also solves every
store that another order goes through, so no access can clash there.
-/

set_option autoImplicit false

namespace TypeInference

namespace Store

variable {s s' : Store} {accesses left : List Access} {G : Assignment → Prop} {a : Access}

private theorem Solves.suited {σ : Assignment} (solves : s.Solves σ)
    (hold : ∀ a ∈ accesses, a.Holds σ) : s.Suited accesses (· = σ) where
  inhabited := ⟨σ, rfl⟩
  solves := by
    rintro _ rfl
    exact solves
  agrees a member := by
    refine .inl ?_
    rintro _ rfl
    exact hold a member

end Store

namespace Checker

variable {c c' c'' : Checker} {accesses left middle later : List Access} {a : Access}

section Ends

variable {e : TypeError} {rest : List Access}

end Ends

end Checker

end TypeInference

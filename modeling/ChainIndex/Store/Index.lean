/-!
The names of the store's indices.
-/
namespace ChainIndex
namespace Index

def transactions : String := "transactions"
def scResults : String := "scresults"
def operations : String := "operations"
def tokens : String := "tokens"
def delegators : String := "delegators"
def deploys : String := "scdeploys"
def balances : String := "accountsdcdt"
def blocks : String := "blocks"
def miniBlocks : String := "miniblocks"

def all : List String :=
  [transactions, scResults, operations, tokens, delegators, deploys, balances, blocks, miniBlocks]

end Index
end ChainIndex
